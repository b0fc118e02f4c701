import Sluice.Pool

namespace Sluice

-- A native function works on the bytes of its argument and fills a result of a given width. It
-- gives nothing if it looks for bytes that are not there.
structure Native where
  name : String
  ty : Ty
  run : Bytes → Nat → Option Bytes
  length_run : ∀ {argument : Bytes} {width : Nat} {result : Bytes},
    run argument width = some result → result.length = width

namespace Native

-- Results start at the front of the space for them, and the rest stays zero.
def fill (compute : Bytes → Nat → Option Bytes) (argument : Bytes) (width : Nat) : Option Bytes :=
  match compute argument width with
  | none => none
  | some result =>
      if result.length ≤ width then some (result ++ Bytes.zeros (width - result.length)) else none

private theorem length_fill {compute : Bytes → Nat → Option Bytes} {argument : Bytes} {width : Nat}
    {result : Bytes} (h : fill compute argument width = some result) : result.length = width := by
  unfold fill at h
  split at h
  · contradiction
  · split at h
    · cases h
      simp
      omega
    · contradiction

def ofFunction (name : String) (ty : Ty) (compute : Bytes → Nat → Option Bytes) : Native :=
  ⟨name, ty, fill compute, length_fill⟩

end Native

structure Constant where
  name : String
  ty : Ty
  bytes : Bytes
deriving DecidableEq, Repr

-- Both lists are in the order of registration; the place of a native function is its handle.
structure Library where
  natives : List Native
  constants : List Constant

namespace Library

def empty : Library := ⟨[], []⟩

def native? (library : Library) (id : NativeId) : Option Native :=
  library.natives[id.index.toNat]?

-- The natives with their handles.
def handles (library : Library) : List (NativeId × Native) :=
  library.natives.zipIdx.map fun entry => (⟨UInt32.ofNat entry.2⟩, entry.1)

-- One name may have several natives as long as their types differ.
def registerNative (library : Library) (name : String) (result argument : Ty)
    (compute : Bytes → Nat → Option Bytes) : Except Failure (NativeId × Library) :=
  let ty := Ty.func result argument
  if library.natives.any fun native => native.name = name && native.ty.same ty then
    .error (.plain (.nativeRegistered name ty))
  else
    .ok (⟨UInt32.ofNat library.natives.length⟩,
      { library with natives := library.natives ++ [.ofFunction name ty compute] })

def registerConstant (library : Library) (name : String) (ty : Ty) (bytes : Bytes) :
    Except Failure Library := do
  let size ← inRange ty.size?
  if bytes.length ≠ size.toNat then .error (.plain (.constantSize name ty size bytes.length))
  else if library.constants.any fun constant => constant.name = name && constant.ty.same ty then
    .error (.plain (.constantRegistered name ty))
  else .ok { library with constants := library.constants ++ [⟨name, ty, bytes⟩] }

end Library

end Sluice
