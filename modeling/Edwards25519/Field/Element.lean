import Edwards25519.Field.Limbs

/-! Elements of the field of `2 ^ 255 - 19` residues, held as ten limbs of 32 bits. Sums and
differences are not carried. Products are, in 64 bits, and their limbs are back in bounds. Different
limbs can stand for the same residue; the encoding in 32 bytes is that of the residue. -/
namespace Edwards25519

structure FieldElement where
  limbs : Limbs Int32

namespace FieldElement

def ofLimbs (l0 l1 l2 l3 l4 l5 l6 l7 l8 l9 : Int32) : FieldElement :=
  ⟨#v[l0, l1, l2, l3, l4, l5, l6, l7, l8, l9]⟩

def zero : FieldElement := ofLimbs 0 0 0 0 0 0 0 0 0 0

def one : FieldElement := ofLimbs 1 0 0 0 0 0 0 0 0 0

def two : FieldElement := ofLimbs 2 0 0 0 0 0 0 0 0 0

/-- The limbs in the words in which products are formed. -/
def wide (f : FieldElement) : Limbs Int64 := f.limbs.map Int32.toInt64

def narrow (h : Limbs Int64) : FieldElement := ⟨h.map Int64.toInt32⟩

def add (f g : FieldElement) : FieldElement := ⟨Vector.zipWith (· + ·) f.limbs g.limbs⟩

def sub (f g : FieldElement) : FieldElement := ⟨Vector.zipWith (· - ·) f.limbs g.limbs⟩

def neg (f : FieldElement) : FieldElement := ⟨f.limbs.map (-·)⟩

def mul (f g : FieldElement) : FieldElement :=
  narrow (Limbs.carryAll Limbs.productChain (Limbs.product f.wide g.wide))

def square (f : FieldElement) : FieldElement :=
  narrow (Limbs.carryAll Limbs.productChain (Limbs.square f.wide))

/-- Twice the square, carried once. -/
def squareDouble (f : FieldElement) : FieldElement :=
  narrow (Limbs.carryAll Limbs.productChain (Limbs.double (Limbs.square f.wide)))

/-- Bit 255 is ignored; numbers from `2 ^ 255 - 19` on give further limbs for small residues. -/
def ofBytes (b : Bytes 32) : FieldElement :=
  narrow (Limbs.carryAll Limbs.unpackChain (Limbs.load b))

/-- The residue in 32 bytes, bit 255 clear. -/
def toBytes (f : FieldElement) : Bytes 32 := Limbs.pack (Limbs.canonical f.wide)

end FieldElement
end Edwards25519
