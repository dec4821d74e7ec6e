/-!
# Attributes of methods and parameters

Attribute words are sets of flags. The declared flags of a method cover all sixteen bits, its low
three bits being one access level and not three flags; those of a parameter leave gaps, and a word
with a bit in a gap is not an attribute word.
-/

namespace CilMethod

structure MethodAttributes where
  bits : UInt16
  deriving DecidableEq, Inhabited

namespace MethodAttributes

/-- The access level that lets every caller in. -/
def publicAccess : MethodAttributes := ⟨0x0006⟩

/-- Set if the method takes no `this` argument. -/
def staticMethod : MethodAttributes := ⟨0x0010⟩

/-- Every bit that some flag declares. -/
def declared : UInt16 := 0xffff

def union (a b : MethodAttributes) : MethodAttributes := ⟨a.bits ||| b.bits⟩

/-- The attributes with exactly these bits, if all of them are declared. -/
def ofBits? (bits : UInt16) : Option MethodAttributes :=
  if bits &&& declared = bits then some ⟨bits⟩ else none

/-- The attributes with those of these bits that are declared. -/
def ofBitsTruncated (bits : UInt16) : MethodAttributes := ⟨bits &&& declared⟩

/-- Just the access level. -/
def memberAccess (a : MethodAttributes) : MethodAttributes := ⟨a.bits &&& 0x0007⟩

/-- Does the method take an implicit `this` argument? -/
def hasThis (a : MethodAttributes) : Bool :=
  a.bits &&& staticMethod.bits != staticMethod.bits

end MethodAttributes

structure ParameterAttributes where
  bits : UInt16
  deriving DecidableEq, Inhabited

namespace ParameterAttributes

/-- Every bit that some flag declares: in, out, optional, default value, field marshal. -/
def declared : UInt16 := 0x3013

def none : ParameterAttributes := ⟨0⟩

/-- The attributes with exactly these bits, if all of them are declared. -/
def ofBits? (bits : UInt16) : Option ParameterAttributes :=
  if bits &&& declared = bits then some ⟨bits⟩ else Option.none

/-- The attributes with those of these bits that are declared. -/
def ofBitsTruncated (bits : UInt16) : ParameterAttributes := ⟨bits &&& declared⟩

end ParameterAttributes

end CilMethod
