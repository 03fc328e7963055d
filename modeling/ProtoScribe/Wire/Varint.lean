import ProtoScribe.Fault

/-!
# Variable-length integers

A varint is a number in base 128, least significant group first, with the high bit set on every byte
but the last. Numbers are taken modulo `2 ^ 64`, so ten bytes hold any of them, and a negative number
is written as its 64-bit two's complement. Zigzag folds the sign into the lowest bit, so that small
numbers of either sign stay short.

`scan` is the reader: it works on the bytes that are left and tells how many it took, also when it
fails.
-/

namespace ProtoScribe.Wire

/-- The base-128 groups of `n`, with at most `more` groups before the last. -/
def groups : (more n : Nat) → List UInt8
  | 0, n => [UInt8.ofNat n]
  | more + 1, n =>
    if n < 128 then [UInt8.ofNat n] else UInt8.ofNat (n % 128 + 128) :: groups more (n / 128)

/-- The varint of an integer modulo `2 ^ 64`. -/
def varint (v : Int) : List UInt8 := groups 9 (v % 2 ^ 64).toNat

/-- The outcome of reading a varint: its value or why there is none, and the bytes taken. -/
structure Scan where
  value : Except Fault Nat
  taken : Nat

/-- Reads a varint of at most `limit` bytes off the front. -/
def scan : (limit : Nat) → List UInt8 → Scan
  | 0, _ => ⟨.error .overlongVarint, 0⟩
  | _ + 1, [] => ⟨.error .truncatedVarint, 0⟩
  | limit + 1, b :: rest =>
    if b.toNat < 128 then ⟨.ok b.toNat, 1⟩
    else
      let s := scan limit rest
      ⟨s.value.map (b.toNat - 128 + 128 * ·), s.taken + 1⟩

/-- The signed reading of a `bits`-bit number. -/
def twosComplement (bits n : Nat) : Int := if n < 2 ^ (bits - 1) then n else (n : Int) - 2 ^ bits

/-- Interleaves the integers with the naturals: 0, -1, 1, -2, 2, … -/
def zigzag (v : Int) : Int := if 0 ≤ v then 2 * v else -2 * v - 1

/-- Undoes `zigzag`; a negative number is read by the same rule on its floor half. -/
def unzigzag (v : Int) : Int := if v % 2 = 0 then v / 2 else -(v / 2) - 1

/-! ### Fixed width -/

/-- The `size` low bytes of `n`, least significant first. -/
def littleEndian : (size n : Nat) → List UInt8
  | 0, _ => []
  | size + 1, n => UInt8.ofNat (n % 256) :: littleEndian size (n / 256)

def ofLittleEndian : List UInt8 → Nat
  | [] => 0
  | b :: rest => b.toNat + 256 * ofLittleEndian rest

end ProtoScribe.Wire
