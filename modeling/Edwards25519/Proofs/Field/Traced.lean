import Edwards25519.Proofs.Field.LimbRange
import Edwards25519.Proofs.Field.Simulation

/-! Field elements in exact integers that record whether words can hold what is computed. An element
carries with it that every sum, product, shift and carry on the way to it fits in the words of the
program, that all factors were within their bound, and that no limb was cut off when it came back to
32 bits. -/
namespace Edwards25519

/-- The bytes are read as the limbs of their number. -/
lemma FieldElement.ofBytes_eq_narrow (b : Bytes 32) :
    ofBytes b = narrow (Limbs.carryAll Limbs.unpackChain (Limbs.ofNat b.toNat)) := by
  rw [ofBytes, Limbs.load_eq_ofNat]

/-- Ten limbs, and whether all that led to them fits in 32 bits, products in 64. -/
structure Traced where
  limbs : Limbs (Checked 32)

namespace Traced

def ofElement (f : FieldElement) : Traced := ⟨f.limbs.map fun x => ⟨x.toInt, True⟩⟩

/-- The limbs in the words in which products are formed. -/
def wide (f : Traced) : Limbs (Checked 64) := f.limbs.map fun c => ⟨c.value, c.fits⟩

/-- The limbs of a factor, which have to be within the bound of an operand. -/
def factor (f : Traced) : Limbs (Checked 64) := Vector.ofFn fun i =>
  ⟨(f.limbs.get i).value, (f.limbs.get i).fits ∧ |(f.limbs.get i).value| ≤ Limbs.operandBound i⟩

/-- Back to 32 bits, without a loss only if the limb fits. -/
def narrow (h : Limbs (Checked 64)) : Traced :=
  ⟨h.map fun c => ⟨c.value, c.fits ∧ InWord 32 c.value⟩⟩

instance : Coordinate Traced where
  zero := ofElement 0
  one := ofElement 1
  add f g := ⟨Vector.zipWith (· + ·) f.limbs g.limbs⟩
  sub f g := ⟨Vector.zipWith (· - ·) f.limbs g.limbs⟩
  neg f := ⟨f.limbs.map fun c => ⟨-c.value, c.fits ∧ InWord 32 (-c.value)⟩⟩
  mul f g := narrow (Limbs.carryAll Limbs.productChain (Limbs.product f.factor g.factor))
  square f := narrow (Limbs.carryAll Limbs.productChain (Limbs.square f.factor))
  squareDouble f :=
    narrow (Limbs.carryAll Limbs.productChain (Limbs.double (Limbs.square f.factor)))
  d := ofElement Coordinate.d
  twoD := ofElement Coordinate.twoD
  sqrtNegOne := ofElement Coordinate.sqrtNegOne
  ofBytes b := narrow (Limbs.carryAll Limbs.unpackChain (Limbs.ofNat b.toNat))
  toBytes f := Bytes.ofNat 32
    (Limbs.value ((Limbs.canonical f.wide).map Checked.value)).toNat

/-- All that led to the element fits, and its limbs are within `k` times the bound of a product. -/
def Graded (k : ℕ) (f : Traced) : Prop := Limbs.Within (fun i => k * Limbs.productBound i) f.limbs

/-- The element of the program has the same limbs, which are graded. -/
def Follows (k : ℕ) (x : FieldElement) (f : Traced) : Prop :=
  f.Graded k ∧ ∀ i : Fin 10, (x.limbs.get i).toInt = (f.limbs.get i).value

/-- The element of the program has the same limbs, which are within the bound of an operand. -/
def FollowsFactor (x : FieldElement) (f : Traced) : Prop :=
  Limbs.Within Limbs.operandBound f.factor ∧
    ∀ i : Fin 10, (x.limbs.get i).toInt = (f.limbs.get i).value

variable {j k : ℕ} {f g : Traced}

lemma get_ofElement (x : FieldElement) (i : Fin 10) :
    (ofElement x).limbs.get i = ⟨(x.limbs.get i).toInt, True⟩ :=
  Vector.getElem_map _ i.isLt

lemma get_wide (f : Traced) (i : Fin 10) :
    f.wide.get i = ⟨(f.limbs.get i).value, (f.limbs.get i).fits⟩ :=
  Vector.getElem_map _ i.isLt

lemma get_factor (f : Traced) (i : Fin 10) : f.factor.get i = ⟨(f.limbs.get i).value,
    (f.limbs.get i).fits ∧ |(f.limbs.get i).value| ≤ Limbs.operandBound i⟩ :=
  Vector.getElem_ofFn i.isLt

lemma get_narrow (h : Limbs (Checked 64)) (i : Fin 10) : (narrow h).limbs.get i =
    ⟨(h.get i).value, (h.get i).fits ∧ InWord 32 (h.get i).value⟩ :=
  Vector.getElem_map _ i.isLt

lemma get_add (f g : Traced) (i : Fin 10) :
    (f + g).limbs.get i = f.limbs.get i + g.limbs.get i :=
  Vector.getElem_zipWith i.isLt

lemma get_sub (f g : Traced) (i : Fin 10) :
    (f - g).limbs.get i = f.limbs.get i - g.limbs.get i :=
  Vector.getElem_zipWith i.isLt

lemma get_neg (f : Traced) (i : Fin 10) : (-f).limbs.get i =
    ⟨-(f.limbs.get i).value, (f.limbs.get i).fits ∧ InWord 32 (-(f.limbs.get i).value)⟩ :=
  Vector.getElem_map _ i.isLt

lemma Graded.mono (h : f.Graded j) (hjk : j ≤ k) : f.Graded k := by
  intro i
  obtain ⟨hfits, hle⟩ := h i
  have hpos : ∀ i, 0 ≤ Limbs.productBound i := by decide
  exact ⟨hfits, hle.trans (mul_le_mul_of_nonneg_right (by exact_mod_cast hjk) (hpos i))⟩

/-- Up to grade 32 the limbs fit. -/
lemma inWord_of_graded {n : ℤ} {i : Fin 10} (h : |n| ≤ k * Limbs.productBound i) (hk : k ≤ 32) :
    InWord 32 n := by
  have hbound : ∀ i, 0 ≤ Limbs.productBound i ∧ 32 * Limbs.productBound i < 2 ^ 31 := by decide
  obtain ⟨hpos, hlt⟩ := hbound i
  have hle : (k : ℤ) * Limbs.productBound i ≤ 32 * Limbs.productBound i :=
    mul_le_mul_of_nonneg_right (by exact_mod_cast hk) hpos
  have hn := abs_lt.mp ((h.trans hle).trans_lt hlt)
  exact ⟨hn.1.le, hn.2⟩

lemma Graded.add (hf : f.Graded j) (hg : g.Graded k) (hjk : j + k ≤ 32) :
    (f + g).Graded (j + k) := by
  intro i
  obtain ⟨hff, hfb⟩ := hf i
  obtain ⟨hgf, hgb⟩ := hg i
  have hle : |(f.limbs.get i).value + (g.limbs.get i).value| ≤
      (j + k : ℕ) * Limbs.productBound i := by
    rw [Nat.cast_add, add_mul]
    exact (abs_add_le _ _).trans (add_le_add hfb hgb)
  rw [get_add]
  exact ⟨⟨hff, hgf, inWord_of_graded hle hjk⟩, hle⟩

lemma Graded.sub (hf : f.Graded j) (hg : g.Graded k) (hjk : j + k ≤ 32) :
    (f - g).Graded (j + k) := by
  intro i
  obtain ⟨hff, hfb⟩ := hf i
  obtain ⟨hgf, hgb⟩ := hg i
  have hle : |(f.limbs.get i).value - (g.limbs.get i).value| ≤
      (j + k : ℕ) * Limbs.productBound i := by
    rw [Nat.cast_add, add_mul]
    exact (abs_sub _ _).trans (add_le_add hfb hgb)
  rw [get_sub]
  exact ⟨⟨hff, hgf, inWord_of_graded hle hjk⟩, hle⟩

lemma Graded.neg (hf : f.Graded k) (hk : k ≤ 32) : (-f).Graded k := by
  intro i
  obtain ⟨hff, hfb⟩ := hf i
  rw [← abs_neg] at hfb
  rw [get_neg]
  exact ⟨⟨hff, inWord_of_graded hfb hk⟩, hfb⟩

lemma Graded.factor (hf : f.Graded 3) : Limbs.Within Limbs.operandBound f.factor := by
  intro i
  obtain ⟨hff, hfb⟩ := hf i
  have hbound : ∀ i, 3 * Limbs.productBound i ≤ Limbs.operandBound i := by decide
  have hle := hfb.trans (hbound i)
  rw [get_factor]
  exact ⟨⟨hff, hle⟩, hle⟩

lemma graded_narrow {h : Limbs (Checked 64)} (hh : Limbs.Within Limbs.productBound h) :
    (narrow h).Graded 1 := by
  intro i
  obtain ⟨hfits, hle⟩ := hh i
  rw [← one_mul (Limbs.productBound i), ← Nat.cast_one] at hle
  rw [get_narrow]
  exact ⟨⟨hfits, inWord_of_graded hle (by decide)⟩, hle⟩

lemma Graded.wide (hf : f.Graded 3) : Limbs.Within Limbs.wordBound f.wide := by
  intro i
  obtain ⟨hff, hfb⟩ := hf i
  have hbound : ∀ i, 3 * Limbs.productBound i ≤ Limbs.wordBound i := by decide
  rw [get_wide]
  exact ⟨hff, hfb.trans (hbound i)⟩

/-! The words of the program follow. -/

variable {x y : FieldElement}

lemma stands_factor (h : FollowsFactor x f) : Related Stands f.factor x.wide := by
  intro i hi _
  rw [factor, FieldElement.wide, Vector.getElem_ofFn, Vector.getElem_map, Int32.toInt_toInt64]
  exact h.2 ⟨i, hi⟩

lemma stands_wide (h : ∀ i, (x.limbs.get i).toInt = (f.limbs.get i).value) :
    Related Stands f.wide x.wide := by
  intro i hi _
  rw [wide, FieldElement.wide, Vector.getElem_map, Vector.getElem_map, Int32.toInt_toInt64]
  exact h ⟨i, hi⟩

/-- Any limbs of 32 bits are within the bound for encoding. -/
lemma within_ofElement (x : FieldElement) : Limbs.Within Limbs.wordBound (ofElement x).wide := by
  intro i
  have hle := (x.limbs.get i).le_toInt
  have hlt := (x.limbs.get i).toInt_lt
  rw [get_wide, get_ofElement]
  exact ⟨trivial, abs_le.mpr ⟨hle, hlt.le⟩⟩

lemma stands_ofElement (x : FieldElement) : Related Stands (ofElement x).wide x.wide :=
  stands_wide fun i => by rw [get_ofElement]

/-- Carried limbs come back to 32 bits as they are. -/
lemma follows_narrow {h : Limbs (Checked 64)} {v : Limbs Int64}
    (hh : Limbs.Within Limbs.productBound h) (hv : Related Stands h v) :
    Follows 1 (FieldElement.narrow v) (narrow h) := by
  have hg := graded_narrow hh
  refine ⟨hg, fun i => ?_⟩
  have hword : (FieldElement.narrow v).limbs.get i = (v.get i).toInt32 :=
    Vector.getElem_map _ i.isLt
  obtain ⟨⟨hfits, hin⟩, -⟩ := get_narrow h i ▸ hg i
  rw [get_narrow, hword, Int64.toInt_toInt32, hv.fin i hfits]
  exact hin.bmod_eq (by decide)

lemma follows_ofElement {x : FieldElement} (h : (ofElement x).Graded k) :
    Follows k x (ofElement x) :=
  ⟨h, fun i => by rw [get_ofElement]⟩

/-- The bounds of a constant are decided. -/
lemma graded_ofElement {x : FieldElement}
    (h : ∀ i, |(x.limbs.get i).toInt| ≤ Limbs.productBound i) : (ofElement x).Graded 1 := by
  intro i
  rw [get_ofElement]
  exact ⟨trivial, (h i).trans_eq (one_mul _).symm⟩

lemma map_toInt_eq {h : Limbs (Checked 64)} {v : Limbs Int64} (hv : Related Stands h v)
    (hd : Limbs.Digits h) : v.map Int64.toInt = h.map Checked.value :=
  Related.map_eq_map fun i => hv.fin i (hd.fits i)

lemma toInt_bounds {h : Limbs (Checked 64)} {v : Limbs Int64} (hv : Related Stands h v)
    (hd : Limbs.Digits h) (i : Fin 10) :
    0 ≤ (v.get i).toInt ∧ (v.get i).toInt < 2 ^ Limbs.bits i := by
  rw [hv.fin i (hd.fits i)]
  exact hd.bounds i

/-- The encoding does not ask for more than limbs of 32 bits. -/
lemma toBytes_eq_of_within (hf : Limbs.Within Limbs.wordBound f.wide)
    (hstands : Related Stands f.wide x.wide) : Coordinate.toBytes x = Coordinate.toBytes f := by
  have hdigits := Limbs.digits_canonical hf
  have hcanonical := Limbs.canonical_related LimbArithmetic.simulation_int64 hstands
  change Limbs.pack (Limbs.canonical x.wide) =
    Bytes.ofNat 32 (Limbs.value ((Limbs.canonical f.wide).map Checked.value)).toNat
  rw [Limbs.pack_eq_ofNat (toInt_bounds hcanonical hdigits), map_toInt_eq hcanonical hdigits]

lemma toBytes_eq (hf : Follows 3 x f) : Coordinate.toBytes x = Coordinate.toBytes f :=
  toBytes_eq_of_within hf.1.wide (stands_wide hf.2)

lemma Follows.factor (h : Follows 3 x f) : FollowsFactor x f := ⟨h.1.factor, h.2⟩

open LimbArithmetic in
theorem factors_follows : Coordinate.Factors Follows FollowsFactor where
  of_one h := Follows.factor ⟨h.1.mono (by decide), h.2⟩
  mul hf hg := follows_narrow (Limbs.within_product hf.1 hg.1) (Limbs.carryAll_related
    simulation_int64 (Limbs.product_related simulation_int64 (stands_factor hf) (stands_factor hg)) _)
  square hf := follows_narrow (Limbs.within_square hf.1) (Limbs.carryAll_related
    simulation_int64 (Limbs.square_related simulation_int64 (stands_factor hf)) _)
  squareDouble hf := follows_narrow (Limbs.within_squareDouble hf.1) (Limbs.carryAll_related
    simulation_int64 (Limbs.double_related simulation_int64
      (Limbs.square_related simulation_int64 (stands_factor hf))) _)

theorem simulation_follows : Coordinate.Simulation Follows where
  mono h hjk := ⟨h.1.mono hjk, h.2⟩
  zero := follows_ofElement (graded_ofElement (by decide))
  one := follows_ofElement (graded_ofElement (by decide))
  d := follows_ofElement (graded_ofElement (by decide))
  twoD := follows_ofElement (graded_ofElement (by decide))
  sqrtNegOne := follows_ofElement (graded_ofElement (by decide))
  ofBytes b := by
    change Follows 1 (FieldElement.ofBytes b) _
    rw [FieldElement.ofBytes_eq_narrow]
    exact follows_narrow (Limbs.within_unpack b.toNat) (Limbs.carryAll_related
      LimbArithmetic.simulation_int64 (Limbs.ofNat_related LimbArithmetic.simulation_int64 _) _)
  add := by
    intro j k x y f g hf hg hjk
    have h := hf.1.add hg.1 hjk
    refine ⟨h, fun i => ?_⟩
    have hword : (x + y).limbs.get i = x.limbs.get i + y.limbs.get i :=
      Vector.getElem_zipWith i.isLt
    obtain ⟨⟨-, -, hin⟩, -⟩ := get_add f g i ▸ h i
    rw [get_add, hword, Int32.toInt_add, hf.2 i, hg.2 i]
    exact hin.bmod_eq (by decide)
  sub := by
    intro j k x y f g hf hg hjk
    have h := hf.1.sub hg.1 hjk
    refine ⟨h, fun i => ?_⟩
    have hword : (x - y).limbs.get i = x.limbs.get i - y.limbs.get i :=
      Vector.getElem_zipWith i.isLt
    obtain ⟨⟨-, -, hin⟩, -⟩ := get_sub f g i ▸ h i
    rw [get_sub, hword, Int32.toInt_sub, hf.2 i, hg.2 i]
    exact hin.bmod_eq (by decide)
  neg := by
    intro k x f hf hk
    have h := hf.1.neg hk
    refine ⟨h, fun i => ?_⟩
    have hword : (-x).limbs.get i = -x.limbs.get i := Vector.getElem_map _ i.isLt
    obtain ⟨⟨-, hin⟩, -⟩ := get_neg f i ▸ h i
    rw [get_neg, hword, Int32.toInt_neg, hf.2 i]
    exact hin.bmod_eq (by decide)
  mul_three hf hg := factors_follows.mul hf.factor hg.factor
  square_three hf := factors_follows.square hf.factor
  squareDouble_three hf := factors_follows.squareDouble hf.factor
  toBytes_three := toBytes_eq

end Traced
end Edwards25519
