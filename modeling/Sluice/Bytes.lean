namespace Sluice

abbrev Bytes := List UInt8

namespace Bytes

-- The `width` lowest bytes of `n`. Higher bytes are dropped, so the result depends on `n` modulo
-- `256 ^ width` only.
def ofNat : Nat → Nat → Bytes
  | 0, _ => []
  | width + 1, n => UInt8.ofNat n :: ofNat width (n / 256)

def toNat : Bytes → Nat
  | [] => 0
  | byte :: rest => byte.toNat + 256 * toNat rest

-- How many numbers can be told apart in `width` bytes.
def capacity (width : Nat) : Nat := Nat.pow 256 width

-- Two's complement in `width` bytes.
def ofInt (width : Nat) (i : Int) : Bytes :=
  ofNat width (i % (capacity width : Nat)).toNat

-- The upper half of the range stands for the negative numbers.
def toInt (bytes : Bytes) : Int :=
  if 2 * bytes.toNat < capacity bytes.length then bytes.toNat
  else bytes.toNat - (capacity bytes.length : Nat)

def zeros (count : Nat) : Bytes :=
  List.replicate count 0

-- The first `count` bytes and those behind them, if there are that many.
def split? (bytes : Bytes) (count : Nat) : Option (Bytes × Bytes) :=
  if (bytes.take count).length = count then some (bytes.take count, bytes.drop count) else none

-- The `size` bytes from `offset` on, if all of them are there.
def slice? (bytes : Bytes) (offset size : Nat) : Option Bytes :=
  if offset + size ≤ bytes.length then some ((bytes.drop offset).take size) else none

-- Replaces the bytes from `offset` on. The length is kept when `data` ends inside of `bytes`.
def write (bytes : Bytes) (offset : Nat) (data : Bytes) : Bytes :=
  bytes.take offset ++ data ++ bytes.drop (offset + data.length)

@[simp] theorem length_ofNat (width n : Nat) : (ofNat width n).length = width := by
  induction width generalizing n with
  | zero => rfl
  | succ width ih => simp [ofNat, ih]

@[simp] theorem length_zeros (count : Nat) : (zeros count).length = count := by
  simp [zeros]

theorem length_of_slice? {bytes part : Bytes} {offset size : Nat}
    (h : bytes.slice? offset size = some part) : part.length = size := by
  unfold slice? at h
  split at h
  · cases h
    simp
    omega
  · contradiction

theorem length_write {bytes data : Bytes} {offset : Nat}
    (h : offset + data.length ≤ bytes.length) :
    (bytes.write offset data).length = bytes.length := by
  simp [write]
  omega

end Bytes

end Sluice
