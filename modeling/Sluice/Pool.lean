import Sluice.Problem

namespace Sluice

-- Constants one after the other, each at a multiple of its alignment, with zeros in between.
structure Pool where
  bytes : Bytes
deriving DecidableEq, Repr

namespace Pool

def empty : Pool := ⟨[]⟩

def length (pool : Pool) : UInt32 := UInt32.ofNat pool.bytes.length

def padding (align length : Nat) : Nat :=
  (align - length % align) % align

-- Appends `data` and gives its offset. Alignment zero counts as one.
def push (pool : Pool) (data : Bytes) (align : Nat) : UInt32 × Pool :=
  let padded := pool.bytes ++ Bytes.zeros (padding (max align 1) pool.bytes.length)
  (UInt32.ofNat padded.length, ⟨padded ++ data⟩)

-- The bytes have to be those of a value of the type.
def pushTyped (pool : Pool) (ty : Ty) (data : Bytes) : Except Failure (UInt32 × Pool) := do
  let size ← inRange ty.size?
  if data.length ≠ size.toNat then .error (.plain (.literalSize ty size data.length))
  else .ok (pool.push data ty.alignment)

def read? (pool : Pool) (offset size : UInt32) : Option Bytes :=
  pool.bytes.slice? offset.toNat size.toNat

end Pool

-- The next free offset of a scope.
structure Frame where
  offset : UInt32
deriving DecidableEq, Repr

namespace Frame

def allocate (frame : Frame) (size : UInt32) : UInt32 × Frame :=
  (frame.offset, ⟨frame.offset + size⟩)

end Frame

end Sluice
