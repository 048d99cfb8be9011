import OpenGauss.Lib.Mem

/-!
# Sizes of varlena values

The header of a value of variable length has one byte, or four, or names the kind of a value
that is stored elsewhere.
-/

namespace OpenGauss

open Lib

/-- `VARTAG_SIZE`; the flag of huge values does not change the size. -/
def vartagSize (tag : Nat) : Nat :=
  match tag &&& 0x7f with
  | 1 => 8
  | 8 => 18
  | 18 => 16
  | 28 => 16
  | _ => 0

/-- `VARSIZE_ANY` of what stands at a pointer. -/
def varsizeAny (ptr : List UInt8) : Nat :=
  let header := (ptr.headD 0).toNat
  if header = 0x01 then 2 + vartagSize ((ptr.drop 1).headD 0).toNat
  else if header % 2 = 1 then (header >>> 1) &&& 0x7F
  else (ofLe (ptr.take 4) >>> 2) &&& 0x3FFFFFFF

end OpenGauss
