import Sluice.Problem

namespace Sluice

-- Memory of a running program in one buffer. The first `frameSize` bytes are the frame, which holds
-- the named values, and everything above is the stack, which grows at its end.
structure Store where
  bytes : Array UInt8
  frameSize : Nat
deriving DecidableEq, Repr

namespace Store

def ofFrameSize (size : UInt32) : Store := ⟨.replicate size.toNat 0, size.toNat⟩

def stack (store : Store) : Bytes := (store.bytes.extract store.frameSize store.bytes.size).toList

-- How many bytes lie on the stack.
def height (store : Store) : Except Failure Nat :=
  if store.frameSize ≤ store.bytes.size then .ok (store.bytes.size - store.frameSize)
  else .error (.plain .outOfRange)

-- The `size` bytes from `start` on, wherever in the buffer they are.
def slice (store : Store) (start size : Nat) : Except Failure Bytes :=
  if start + size ≤ store.bytes.size then .ok (store.bytes.extract start (start + size)).toList
  else .error (.plain .outOfRange)

-- Puts new bytes in place of the `size` bytes from `start` on. There have to be as many of them.
def fill (store : Store) (start size : Nat) (data : Bytes) : Except Failure Store :=
  if start + size ≤ store.bytes.size ∧ data.length = size then
    .ok { store with bytes := store.bytes.extract 0 start ++ data.toArray ++
      store.bytes.extract (start + size) store.bytes.size }
  else .error (.plain .outOfRange)

-- Where a result of `size` bytes starts. A placement of zero or more leaves a gap of that many zeros
-- above the stack, which grows to the end of the result. A negative one leads to bytes that far below
-- the top, and the result has to lie between them and the top.
def reserve (store : Store) (placement : Int32) (size : UInt32) : Except Failure (Nat × Store) :=
  if 0 ≤ placement then
    let gap := placement.toInt.toNat
    .ok (store.bytes.size + gap,
      { store with bytes := store.bytes ++ .replicate (gap + size.toNat) 0 })
  else do
    let height ← store.height
    let below := (-placement.toInt).toNat
    if height < below ∨ below < size.toNat then
      .error (.plain (.placementOutside placement.toInt size.toNat height))
    else .ok (store.bytes.size - below, store)

def push (store : Store) (placement : Int32) (data : Bytes) : Except Failure Store := do
  let size := UInt32.ofNat data.length
  let (start, store) ← store.reserve placement size
  store.fill start size.toNat data

-- The topmost bytes, and the store without them.
def pop (store : Store) (size : UInt32) : Except Failure (Bytes × Store) := do
  let height ← store.height
  if height < size.toNat then .error (.plain (.underflow size.toNat height))
  else
    let start := store.bytes.size - size.toNat
    let data ← store.slice start size.toNat
    .ok (data, { store with bytes := store.bytes.shrink start })

def readFrame (store : Store) (offset size : UInt32) : Except Failure Bytes :=
  let finish := offset.toNat + size.toNat
  if store.frameSize < finish then
    .error (.plain (.frameReadBeyond offset.toNat finish store.frameSize))
  else store.slice offset.toNat size.toNat

def writeFrame (store : Store) (offset : UInt32) (data : Bytes) : Except Failure Store :=
  let finish := offset.toNat + data.length
  if store.frameSize < finish then
    .error (.plain (.frameWriteBeyond offset.toNat finish store.frameSize))
  else store.fill offset.toNat data.length data

end Store

end Sluice
