import Edwards25519.Scalar.Order
import Mathlib.NumberTheory.LucasPrimality
import Mathlib.Tactic.NormNum.Prime

/-! The orders of the field and of the base point are prime, by Lucas's test. The test needs the prime
factors of the number before, and the large ones among these pass the same test. -/
namespace Edwards25519

/-- The power `a ^ e` modulo `n` for an exponent of at most `bits` bits, by repeated squaring. -/
def powMod (n a : ℕ) : ℕ → ℕ → ℕ
  | 0, _ => 1 % n
  | bits + 1, e =>
    let half := powMod n a bits (e / 2)
    if e % 2 = 0 then half * half % n else half * half % n * a % n

theorem powMod_eq (n a : ℕ) {bits e : ℕ} (he : e < 2 ^ bits) : powMod n a bits e = a ^ e % n := by
  induction bits generalizing e with
  | zero =>
    obtain rfl : e = 0 := by simpa using he
    rfl
  | succ bits ih =>
    have hhalf := ih (show e / 2 < 2 ^ bits by rw [pow_succ] at he; omega)
    have hsquare : a ^ (e / 2) % n * (a ^ (e / 2) % n) % n = a ^ (2 * (e / 2)) % n := by
      rw [← Nat.mul_mod, ← pow_add, ← two_mul]
    rw [powMod, hhalf, hsquare]
    split_ifs with h
    · rw [show 2 * (e / 2) = e by omega]
    · rw [Nat.mod_mul_mod, ← pow_succ, show 2 * (e / 2) + 1 = e by omega]

/-- The number `a` has order `n - 1` modulo `n`, where `n - 1` has the factors given. -/
def LucasTest (n a : ℕ) (factors : List ℕ) : Prop :=
  1 < n ∧ factors.prod + 1 = n ∧ powMod n a (n.log2 + 1) (n - 1) = 1 ∧
    ∀ q ∈ factors, powMod n a (n.log2 + 1) ((n - 1) / q) ≠ 1

instance (n a : ℕ) (factors : List ℕ) : Decidable (LucasTest n a factors) :=
  inferInstanceAs (Decidable (_ ∧ _ ∧ _ ∧ _))

theorem prime_of_lucasTest {n : ℕ} (a : ℕ) (factors : List ℕ)
    (hprime : ∀ q ∈ factors, q.Prime) (h : LucasTest n a factors) : n.Prime := by
  obtain ⟨hn, hprod, hone, hne⟩ := h
  have cast_eq_one (e : ℕ) (he : e ≤ n - 1) :
      (a : ZMod n) ^ e = 1 ↔ powMod n a (n.log2 + 1) e = 1 := by
    have hlt : e < 2 ^ (n.log2 + 1) := (show e < n by omega).trans Nat.lt_log2_self
    rw [powMod_eq n a hlt, ← Nat.cast_pow, ← Nat.cast_one, ZMod.natCast_eq_natCast_iff',
      Nat.mod_eq_of_lt hn]
  refine lucas_primality n (a : ZMod n) ((cast_eq_one _ le_rfl).mpr hone) fun q hq hdvd => ?_
  rw [ne_eq, cast_eq_one _ (Nat.div_le_self _ _)]
  rw [show n - 1 = factors.prod by omega] at hdvd
  obtain ⟨r, hr, hqr⟩ := hq.prime.dvd_prod_iff.mp hdvd
  obtain rfl : q = r := (Nat.prime_dvd_prime_iff_eq hq (hprime r hr)).mp hqr
  exact hne q hr

/-- A number, an element of the order that the test asks for, and the factors of the number before. -/
structure Certificate where
  number : ℕ
  element : ℕ
  factors : List ℕ

/-- Every number passes the test, and its factors are small primes or are certified after it. -/
def Certified (small : List ℕ) : List Certificate → Prop
  | [] => True
  | c :: rest => LucasTest c.number c.element c.factors ∧
      (∀ q ∈ c.factors, q ∈ small ∨ q ∈ rest.map Certificate.number) ∧ Certified small rest

instance Certified.decidable (small : List ℕ) : (l : List Certificate) → Decidable (Certified small l)
  | [] => inferInstanceAs (Decidable True)
  | _ :: rest =>
    have := Certified.decidable small rest
    inferInstanceAs (Decidable (_ ∧ _ ∧ _))

theorem prime_of_certified {small : List ℕ} (hsmall : ∀ q ∈ small, q.Prime)
    {l : List Certificate} (hl : Certified small l) : ∀ n ∈ l.map Certificate.number, n.Prime := by
  induction l with
  | nil => simp
  | cons c rest ih =>
    obtain ⟨htest, hfactors, hrest⟩ := hl
    rw [List.map_cons, List.forall_mem_cons]
    refine ⟨prime_of_lucasTest c.element c.factors (fun q hq => ?_) htest, ih hrest⟩
    rcases hfactors q hq with hq | hq
    · exact hsmall q hq
    · exact ih hrest q hq

/-- The factors below that are small enough for trial division. -/
def smallPrimes : List ℕ := [
  2, 3, 5, 7, 11, 13, 19, 23, 31, 41, 43, 47, 73, 103, 107, 127, 223, 269, 307, 353, 991, 1361,
  2437, 2851, 4153, 5879, 30703, 57467, 65147, 75707, 82163, 132049, 132667, 137849, 409477, 430751,
  531581, 569003, 1224481, 1923133]

lemma prime_of_mem_smallPrimes : ∀ q ∈ smallPrimes, q.Prime := by
  norm_num [smallPrimes]

def certificates : List Certificate := [
  ⟨57896044618658097711785492504343953926634992332820282019728792003956564819949, 2,
    [74058212732561358302231226437062788676166966415465897661863160754340907, 65147, 3, 2, 2]⟩,
  ⟨7237005577332262213973186563042994240857116359379907606001950938285454250989, 2,
    [276602624281642239937218680557139826668747, 198211423230930754013084525763697, 11, 3, 2, 2]⟩,
  ⟨74058212732561358302231226437062788676166966415465897661863160754340907, 2,
    [75445702479781427272750846543864801, 31757755568855353, 1923133, 132049, 57467, 353, 3, 2]⟩,
  ⟨276602624281642239937218680557139826668747, 2,
    [19757330305831588566944191468367130476339, 7, 2]⟩,
  ⟨19757330305831588566944191468367130476339, 2,
    [172054593956031949258510691, 213441916511, 269, 2]⟩,
  ⟨75445702479781427272750846543864801, 7,
    [1919519569386763, 72106336199, 75707, 5, 5, 3, 3, 2, 2, 2, 2, 2]⟩,
  ⟨198211423230930754013084525763697, 5, [3044861653679985063343, 58964693, 23, 3, 2, 2, 2, 2]⟩,
  ⟨172054593956031949258510691, 2, [4434155615661930479, 2851, 1361, 5, 2]⟩,
  ⟨3044861653679985063343, 5, [137849, 132667, 82163, 30703, 11, 3, 2]⟩,
  ⟨4434155615661930479, 17, [1257559732178653, 43, 41, 2]⟩,
  ⟨31757755568855353, 10, [430751, 4153, 223, 107, 31, 3, 2, 2, 2]⟩,
  ⟨1919519569386763, 2, [8574133, 127, 47, 47, 19, 7, 3, 2]⟩,
  ⟨1257559732178653, 2, [1224481, 531581, 23, 7, 3, 2, 2]⟩,
  ⟨213441916511, 13, [292386187, 73, 5, 2]⟩,
  ⟨72106336199, 7, [2773320623, 13, 2]⟩,
  ⟨2773320623, 5, [569003, 2437, 2]⟩,
  ⟨292386187, 2, [5879, 307, 3, 3, 3, 3, 2]⟩,
  ⟨58964693, 2, [14741173, 2, 2]⟩,
  ⟨14741173, 2, [409477, 3, 3, 2, 2]⟩,
  ⟨8574133, 2, [991, 103, 7, 3, 2, 2]⟩]

lemma certified_certificates : Certified smallPrimes certificates := by decide +kernel

/-- The order of the field. -/
def fieldOrder : ℕ := 2 ^ 255 - 19

theorem prime_fieldOrder : Nat.Prime fieldOrder :=
  prime_of_certified prime_of_mem_smallPrimes certified_certificates _ (by decide)

theorem prime_groupOrder : Nat.Prime groupOrder :=
  prime_of_certified prime_of_mem_smallPrimes certified_certificates _ (by decide)

instance : Fact (Nat.Prime fieldOrder) := ⟨prime_fieldOrder⟩

instance : Fact (Nat.Prime groupOrder) := ⟨prime_groupOrder⟩

end Edwards25519
