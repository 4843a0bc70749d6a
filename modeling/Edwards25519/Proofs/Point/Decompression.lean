import Edwards25519.Proofs.Field.Encoding
import Edwards25519.Proofs.Point.SmallOrder

/-! Which strings are decoded, and to what. A string is decoded if the residue that it has below bit 255
is the coordinate `y` of some point of the curve, and then the point has the sign that bit 255 gives. -/
namespace Edwards25519

open CurvePoint

/-- The residue is the coordinate `y` of some point of the curve. -/
def IsOrdinate (y : Residue) : Prop := ∃ x : Residue, -x ^ 2 + y ^ 2 = 1 + Coordinate.d * x ^ 2 * y ^ 2

lemma curve_on_iff {x y : Residue} :
    curve.On x y ↔ -x ^ 2 + y ^ 2 = 1 + Coordinate.d * x ^ 2 * y ^ 2 := by
  rw [EdwardsCurve.On, curve_d, neg_add_eq_sub]

/-- The residue of the low 255 bits. -/
def Bytes.residue (b : Bytes 32) : Residue := (b.toNat % 2 ^ 255 : ℕ)

/-- A string is read as some point if and only if its residue is the coordinate of one. -/
lemma CurvePoint.exists_decodes_iff {b : Bytes 32} : (∃ P, Decodes b P) ↔ IsOrdinate b.residue := by
  constructor
  · rintro ⟨P, hP⟩
    refine ⟨P.x, curve_on_iff.mp ?_⟩
    rw [Bytes.residue, ← hP.y]
    exact P.on
  · rintro ⟨x, hx⟩
    have hroot := (Extended.on_iff b x).mp (curve_on_iff.mpr hx)
    obtain ⟨P, hP, -⟩ := Extended.denotes_ofRoot hroot
    exact ⟨P, hP⟩

/-- Zero has no sign, so all strings with the same low bits are read as the same point. -/
lemma CurvePoint.Decodes.of_x_eq_zero {b c : Bytes 32} {P : CurvePoint} (h : Decodes b P)
    (hx : P.x = 0) (hlow : c.residue = b.residue) : Decodes c P :=
  ⟨h.y.trans hlow.symm, fun hne => absurd hx hne⟩

namespace Extended

variable {b : Bytes 32} {p : Extended FieldElement} {P : CurvePoint}

theorem exists_decode_iff :
    (∃ p : Extended FieldElement, decode? b = some p) ↔ IsOrdinate b.residue := by
  rw [← exists_decodes_iff]
  constructor
  · rintro ⟨p, hp⟩
    obtain ⟨P, hP, -⟩ := represents_of_decode hp
    exact ⟨P, hP⟩
  · rintro ⟨P, hP⟩
    obtain ⟨p, hp, -⟩ := decode_of_decodes hP
    exact ⟨p, hp⟩

theorem decode_eq_none_iff :
    (decode? b : Option (Extended FieldElement)) = none ↔ ¬ IsOrdinate b.residue := by
  rw [← exists_decode_iff, ← Option.ne_none_iff_exists', not_not]

/-- With the denominator one the coordinates are those of the point. -/
lemma Represents.residue_of_z_eq_one (h : p.Represents P) (hz : p.z = 1) :
    p.x.residue = P.x ∧ p.y.residue = P.y := by
  obtain ⟨-, hx, hy⟩ : p.z.residue ≠ 0 ∧ p.x.residue / p.z.residue = P.x ∧
      p.y.residue / p.z.residue = P.y := h.toProjective.div
  rw [hz, FieldElement.residue_one, div_one] at hx hy
  exact ⟨hx, hy⟩

/-- What decoding makes of a string: `y` is its residue, the denominator is one, the fourth coordinate is
the product of the first two, and `x` solves the equation of the curve and has the parity of bit 255. -/
structure ReadFrom (b : Bytes 32) (p : Extended FieldElement) : Prop where
  y : p.y.residue = b.residue
  z : p.z = 1
  t : p.t = p.x * p.y
  product : p.t.residue = p.x.residue * p.y.residue
  on : -p.x.residue ^ 2 + p.y.residue ^ 2 = 1 + Coordinate.d * p.x.residue ^ 2 * p.y.residue ^ 2
  sign : p.x.residue ≠ 0 → (Odd p.x.residue.val ↔ b.topBit = true)

lemma z_eq_one_of_decode (h : decode? b = some p) : p.z = 1 := by
  obtain ⟨x, rfl⟩ := exists_ofRoot h
  rfl

theorem readFrom_of_decode (h : decode? b = some p) : ReadFrom b p := by
  have hz := z_eq_one_of_decode h
  have ht : p.t = p.x * p.y := by
    obtain ⟨x, rfl⟩ := exists_ofRoot h
    rfl
  obtain ⟨P, hP, hrep⟩ := represents_of_decode h
  obtain ⟨hx, hy⟩ := hrep.residue_of_z_eq_one hz
  obtain ⟨hvalid, -⟩ := represents_iff.mp hrep
  have hproduct := hvalid.product
  rw [hz, FieldElement.residue_one, one_mul] at hproduct
  constructor
  · exact hy.trans hP.y
  · exact hz
  · exact ht
  · exact hproduct.symm
  · rw [hx, hy]
    exact curve_on_iff.mp P.on
  · rw [hx]
    exact hP.sign

lemma exists_decode_of_decodes (h : Decodes b P) :
    ∃ p : Extended FieldElement, decode? b = some p ∧ p.x.residue = P.x := by
  obtain ⟨p, hp, hrep⟩ := decode_of_decodes h
  exact ⟨p, hp, (hrep.residue_of_z_eq_one (z_eq_one_of_decode hp)).1⟩

/-- Where `x` is zero, the string with the other bit 255 is decoded too. -/
theorem decode_of_x_eq_zero (h : decode? b = some p) (hx : p.x.residue = 0) {c : Bytes 32}
    (hlow : c.residue = b.residue) :
    ∃ q : Extended FieldElement, decode? c = some q ∧ q.x.residue = 0 := by
  obtain ⟨P, hP, hrep⟩ := represents_of_decode h
  have hPx : P.x = 0 := (hrep.residue_of_z_eq_one (z_eq_one_of_decode h)).1.symm.trans hx
  obtain ⟨q, hq, hqx⟩ := exists_decode_of_decodes (hP.of_x_eq_zero hPx hlow)
  exact ⟨q, hq, hqx.trans hPx⟩

end Extended

namespace Element

variable {F : Type} [Coordinate F] {b : Bytes 32}

lemma decode_toList (b : Bytes 32) : (decode b.toList : Except Error (Element F)) =
    (Extended.decode? b).elim (.error .invalidCurvePoint) fun p => .ok (.extended p) := by
  rw [decode, Bytes.ofList?_toList]
  dsimp only
  cases (Extended.decode? b : Option (Extended F)) <;> rfl

lemma decode_eq_ok_iff {e : Element F} :
    decode b.toList = .ok e ↔ ∃ p, Extended.decode? b = some p ∧ e = .extended p := by
  rw [decode_toList]
  cases (Extended.decode? b : Option (Extended F)) with
  | none => simp
  | some p => simp [eq_comm]

lemma decode_eq_error_iff :
    (decode b.toList : Except Error (Element F)) = .error .invalidCurvePoint ↔
      (Extended.decode? b : Option (Extended F)) = none := by
  rw [decode_toList]
  cases (Extended.decode? b : Option (Extended F)) with
  | none => simp
  | some p => simp

/-- The strings that are decoded are those whose residue is the coordinate `y` of some point of the curve,
and the others are refused for that cause. The element that is decoded is such a point, and bit 255 is the
parity of its `x`. Where `x` is zero, either bit is accepted. -/
theorem decode_accepts (b : Bytes 32) :
    ((∃ e : Element FieldElement, decode b.toList = .ok e) ↔ IsOrdinate b.residue) ∧
    ((decode b.toList : Except Error (Element FieldElement)) = .error .invalidCurvePoint ↔
      ¬ IsOrdinate b.residue) ∧
    ∀ e : Element FieldElement, decode b.toList = .ok e → ∃ p, e = .extended p ∧
      Extended.decode? b = some p ∧ Extended.ReadFrom b p ∧ p.Valid ∧ e.onCurve = .ok true ∧
      (p.x.residue = 0 → ∀ c : Bytes 32, c.residue = b.residue →
        ∃ q : Extended FieldElement, decode c.toList = .ok (.extended q) ∧ q.x.residue = 0) := by
  refine ⟨?_, ?_, fun e he => ?_⟩
  · rw [← Extended.exists_decode_iff]
    constructor
    · rintro ⟨e, he⟩
      obtain ⟨p, hp, -⟩ := decode_eq_ok_iff.mp he
      exact ⟨p, hp⟩
    · rintro ⟨p, hp⟩
      exact ⟨_, decode_eq_ok_iff.mpr ⟨p, hp, rfl⟩⟩
  · rw [decode_eq_error_iff, Extended.decode_eq_none_iff]
  · obtain ⟨p, hp, rfl⟩ := decode_eq_ok_iff.mp he
    obtain ⟨P, -, hrep⟩ := Extended.represents_of_decode hp
    obtain ⟨hvalid, -⟩ := Extended.represents_iff.mp hrep
    refine ⟨p, rfl, hp, Extended.readFrom_of_decode hp, hvalid, ?_, fun hx c hlow => ?_⟩
    · exact congrArg Except.ok hrep.toProjective.onCurve
    · obtain ⟨q, hq, hqx⟩ := Extended.decode_of_x_eq_zero hp hx hlow
      exact ⟨q, decode_eq_ok_iff.mpr ⟨q, hq, rfl⟩, hqx⟩

/-- The base point, whose `x` is not zero, a string for the neutral point that has bit 255 set, and the
residue two, which no point has as its `y`. -/
theorem decode_accepts_base :
    (∃ p : Extended FieldElement, decode basePointEncoded.toList = .ok (.extended p) ∧
      p.x.residue ≠ 0 ∧ ¬ Odd p.x.residue.val) ∧
    (∃ p : Extended FieldElement, decode (Bytes.ofNat 32 (2 ^ 255 + 1)).toList = .ok (.extended p) ∧
      p.x.residue = 0) ∧
    (decode (Bytes.ofNat 32 2).toList : Except Error (Element FieldElement)) =
      .error .invalidCurvePoint := by
  refine ⟨?_, ?_, ?_⟩
  · obtain ⟨p, hp, hpx⟩ := Extended.exists_decode_of_decodes (encode_base ▸ decodes_encode base)
    have hdecode := decode_eq_ok_iff.mpr ⟨p, hp, rfl⟩
    obtain ⟨q, hq, -, hread, -⟩ := (decode_accepts _).2.2 _ hdecode
    obtain rfl := extended.inj hq
    have hx : p.x.residue ≠ 0 := by
      rw [hpx]
      decide
    have hbit : ¬ basePointEncoded.topBit = true := by decide
    exact ⟨p, hdecode, hx, mt (hread.sign hx).mp hbit⟩
  · obtain ⟨p, hp, hpx⟩ := Extended.exists_decode_of_decodes decodes_neutral
    have hlow : (Bytes.ofNat 32 (2 ^ 255 + 1)).residue = (Bytes.ofNat 32 1).residue := by
      unfold Bytes.residue
      rw [Bytes.toNat_ofNat, Bytes.toNat_ofNat]
      rfl
    have hdecode := decode_eq_ok_iff.mpr ⟨p, hp, rfl⟩
    obtain ⟨q, hq, -, -, -, -, hzero⟩ := (decode_accepts _).2.2 _ hdecode
    obtain rfl := extended.inj hq
    exact hzero hpx _ hlow
  · have hnone : (Extended.decode? (Bytes.ofNat 32 2) : Option (Extended Residue)).isSome = false := by
      decide +kernel
    rw [(decode_accepts _).2.1, ← exists_decodes_iff]
    rintro ⟨P, hP⟩
    obtain ⟨p, hp⟩ := Extended.decode_complete hP
    rw [hp] at hnone
    exact Bool.noConfusion hnone

end Element
end Edwards25519
