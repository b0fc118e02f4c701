import Mathlib
import Sluice.Proofs.StackLayout

namespace Sluice

-- The frame bytes that one allocation got.
structure Slot where
  offset : UInt32
  size : UInt32
deriving DecidableEq, Repr

namespace Slot

def stop (slot : Slot) : Nat := slot.offset.toNat + slot.size.toNat

def bytes (slot : Slot) : Finset Nat := .Ico slot.offset.toNat slot.stop

def total (slots : List Slot) : Nat := (slots.map fun slot => slot.size.toNat).sum

theorem total_cons (slot : Slot) (slots : List Slot) :
    total (slot :: slots) = slot.size.toNat + total slots := by
  simp [total]

theorem total_append (first second : List Slot) :
    total (first ++ second) = total first + total second := by
  simp [total]

-- Slots without gaps from the first byte on, the last one in front.
inductive Tiled : List Slot → Nat → Prop
  | nil : Tiled [] 0
  | cons {slot : Slot} {slots : List Slot} (h : Tiled slots slot.offset.toNat) :
      Tiled (slot :: slots) slot.stop

theorem Tiled.stop_le {slots : List Slot} {top : Nat} (h : Tiled slots top) :
    ∀ slot ∈ slots, slot.stop ≤ top := by
  induction h with
  | nil => simp
  | @cons first slots h ih =>
      intro slot hslot
      rcases List.mem_cons.mp hslot with rfl | hslot
      · exact Nat.le_refl _
      · have hbelow := ih slot hslot
        have hfirst : first.stop = first.offset.toNat + first.size.toNat := rfl
        omega

theorem Tiled.disjoint {slots : List Slot} {top : Nat} (h : Tiled slots top) :
    slots.Pairwise fun slot other => Disjoint slot.bytes other.bytes := by
  induction h with
  | nil => exact .nil
  | @cons first slots h ih =>
      refine .cons (fun slot hslot => ?_) ih
      have hbelow := h.stop_le slot hslot
      rw [Finset.disjoint_left]
      intro byte hfirst hbyte
      have hlow := (Finset.mem_Ico.mp hfirst).1
      have hhigh := (Finset.mem_Ico.mp hbyte).2
      omega

theorem Tiled.bytes_subset {slots : List Slot} {top size : Nat} (h : Tiled slots top)
    (hsize : top ≤ size) : ∀ slot ∈ slots, slot.bytes ⊆ .range size := by
  intro slot hslot byte hbyte
  have hstop := h.stop_le slot hslot
  have hhigh := (Finset.mem_Ico.mp hbyte).2
  exact Finset.mem_range.mpr (by omega)

theorem Tiled.total_eq {slots : List Slot} {top : Nat} (h : Tiled slots top) :
    total slots = top := by
  induction h with
  | nil => rfl
  | @cons first slots h ih =>
      have hsum := total_cons first slots
      have hfirst : first.stop = first.offset.toNat + first.size.toNat := rfl
      omega

end Slot

inductive Request
  | enter
  | leave
  | allocate (size : UInt32)
  | declare (name : String) (binding : Binding) (position : Position)

namespace Request

def size : Request → Nat
  | .allocate size => size.toNat
  | _ => 0

def total (requests : List Request) : Nat := (requests.map size).sum

end Request

-- A new scope is known by the number of scopes around it.
inductive Answer
  | entered (id : Nat)
  | left
  | allocated (slot : Slot)
  | declared
  | refused (failure : Failure)

namespace Answer

def isEntered : Answer → Bool
  | .entered _ => true
  | _ => false

def isLeft : Answer → Bool
  | .left => true
  | _ => false

-- Keeps a list of slots for each open scope, the innermost scope and the newest slot first.
def note (slots : List (List Slot)) : Answer → List (List Slot)
  | .entered _ => [] :: slots
  | .left => slots.tail
  | .allocated slot => slots.modifyHead (slot :: ·)
  | .declared => slots
  | .refused _ => slots

-- The slots that were handed out in scopes that are still open.
def live (answers : List Answer) : List (List Slot) := answers.foldl note [[]]

end Answer

namespace Scopes

-- What is refused changes nothing.
def settled (scopes : Scopes) (answer : Answer) : Except Failure Scopes → Answer × Scopes
  | .ok next => (answer, next)
  | .error failure => (.refused failure, scopes)

def answer (scopes : Scopes) : Request → Answer × Scopes
  | .enter => (.entered scopes.depth, scopes.enter)
  | .leave => scopes.settled .left scopes.leave
  | .allocate size => (.allocated ⟨(scopes.allocate size).1, size⟩, (scopes.allocate size).2)
  | .declare name binding position =>
      scopes.settled .declared (scopes.declare name binding position)

def serve (scopes : Scopes) : List Request → List Answer × Scopes
  | [] => ([], scopes)
  | request :: rest =>
      let first := scopes.answer request
      let others := first.2.serve rest
      (first.1 :: others.1, others.2)

theorem serve_append (scopes : Scopes) (first second : List Request) :
    scopes.serve (first ++ second) =
      ((scopes.serve first).1 ++ ((scopes.serve first).2.serve second).1,
        ((scopes.serve first).2.serve second).2) := by
  induction first generalizing scopes with
  | nil => rfl
  | cons request first ih => simp only [List.cons_append, serve, ih]

-- Everything that a request can lead to.
inductive Serves (scopes : Scopes) : Request → Answer → Scopes → Prop
  | enter : Serves scopes .enter (.entered scopes.depth) scopes.enter
  | leave {scope : Scope} {outer : List Scope} (houter : scopes.outer = scope :: outer) :
      Serves scopes .leave .left { scopes with current := scope, outer := outer }
  | leaveRoot (houter : scopes.outer = []) :
      Serves scopes .leave (.refused (.plain .leavingRoot)) scopes
  | allocate (size : UInt32) :
      Serves scopes (.allocate size) (.allocated ⟨scopes.current.frame.offset, size⟩)
        (scopes.allocate size).2
  | declare {name : String} {binding : Binding} {position : Position}
      (hnew : ∀ other ∈ scopes.current.overloads name, other.ty.same binding.ty = false) :
      Serves scopes (.declare name binding position) .declared { scopes with
        current := { scopes.current with
          bindings := scopes.current.bindings ++ [(name, binding)] } }
  | declareAgain {name : String} {binding other : Binding} {position : Position}
      (hother : other ∈ scopes.current.overloads name) (hsame : other.ty.same binding.ty = true) :
      Serves scopes (.declare name binding position)
        (.refused (.located position (.alreadyBound name other.ty))) scopes

private theorem declare_eq_error {scopes : Scopes} {name : String} {binding : Binding}
    {position : Position}
    {failure : Failure} (h : scopes.declare name binding position = .error failure) :
    ∃ other ∈ scopes.current.overloads name, other.ty.same binding.ty = true ∧
      failure = .located position (.alreadyBound name other.ty) := by
  unfold declare at h
  split at h
  · rename_i other hfind
    have hsame := List.find?_some hfind
    cases h
    exact ⟨other, List.mem_of_find?_eq_some hfind, hsame, rfl⟩
  · contradiction

theorem serves_answer (scopes : Scopes) (request : Request) :
    scopes.Serves request (scopes.answer request).1 (scopes.answer request).2 := by
  cases request with
  | enter => exact .enter
  | leave =>
      obtain ⟨current, outer, frameSize⟩ := scopes
      cases outer with
      | nil => exact .leaveRoot rfl
      | cons scope outer => exact .leave rfl
  | allocate size => exact .allocate size
  | declare name binding position =>
      rw [answer]
      cases hdeclare : scopes.declare name binding position with
      | error failure =>
          obtain ⟨other, hother, hsame, rfl⟩ := declare_eq_error hdeclare
          exact .declareAgain hother hsame
      | ok declared =>
          obtain ⟨hnew, rfl⟩ := declare_eq_ok hdeclare
          exact .declare hnew

variable {scopes next : Scopes} {request : Request} {answer : Answer}

theorem leave_eq_error_iff {failure : Failure} :
    scopes.leave = .error failure ↔ scopes.depth = 1 ∧ failure = .plain .leavingRoot := by
  obtain ⟨current, outer, frameSize⟩ := scopes
  cases outer with
  | nil => simp [leave, depth, chain, eq_comm]
  | cons scope outer => simp [leave, depth, chain]

private theorem Serves.depth_eq (h : scopes.Serves request answer next) :
    next.depth + (if answer.isLeft then 1 else 0) =
      scopes.depth + if answer.isEntered then 1 else 0 := by
  cases h with
  | leave houter => simp [depth, chain, houter, Answer.isLeft, Answer.isEntered]
  | _ => rfl

theorem depth_serve (scopes : Scopes) (requests : List Request) :
    (scopes.serve requests).2.depth + (scopes.serve requests).1.countP Answer.isLeft =
      scopes.depth + (scopes.serve requests).1.countP Answer.isEntered := by
  induction requests generalizing scopes with
  | nil => rfl
  | cons request rest ih =>
      have hfirst := (scopes.serves_answer request).depth_eq
      have hrest := ih (scopes.answer request).2
      simp only [serve, List.countP_cons]
      omega

theorem Serves.frameSize_eq (h : scopes.Serves request answer next) :
    (∃ size, request = .allocate size ∧ next.frameSize.toNat =
      max scopes.frameSize.toNat next.current.frame.offset.toNat) ∨
    ((∀ size, request ≠ .allocate size) ∧ next.frameSize = scopes.frameSize) := by
  cases h with
  | allocate size => exact .inl ⟨size, rfl, toNat_max _ _⟩
  | _ => exact .inr ⟨by simp, rfl⟩

theorem frameSize_le_serve (scopes : Scopes) (requests : List Request) :
    scopes.frameSize.toNat ≤ (scopes.serve requests).2.frameSize.toNat := by
  induction requests generalizing scopes with
  | nil => exact Nat.le_refl _
  | cons request rest ih =>
      have hrest := ih (scopes.answer request).2
      rcases (scopes.serves_answer request).frameSize_eq with ⟨_, -, hfirst⟩ | ⟨-, hfirst⟩
      · simp only [serve]
        omega
      · rwa [hfirst] at hrest

-- The frame offsets that the allocations of a run come to.
def tops (scopes : Scopes) (requests : List Request) : Set Nat :=
  {top | ∃ front size, front ++ [.allocate size] <+: requests ∧
    top = (scopes.serve (front ++ [.allocate size])).2.current.frame.offset.toNat}

private theorem tops_concat_allocate (scopes : Scopes) (requests : List Request) (size : UInt32) :
    scopes.tops (requests ++ [.allocate size]) =
      insert (scopes.serve (requests ++ [.allocate size])).2.current.frame.offset.toNat
        (scopes.tops requests) := by
  ext top
  constructor
  · rintro ⟨front, found, hprefix, rfl⟩
    rcases List.prefix_concat_iff.mp hprefix with heq | hprefix
    · exact .inl (by rw [heq])
    · exact .inr ⟨front, found, hprefix, rfl⟩
  · rintro (rfl | ⟨front, found, hprefix, rfl⟩)
    · exact ⟨requests, size, List.prefix_rfl, rfl⟩
    · exact ⟨front, found, hprefix.trans (List.prefix_append ..), rfl⟩

private theorem tops_concat_of_ne (scopes : Scopes) (requests : List Request) {request : Request}
    (h : ∀ size, request ≠ .allocate size) :
    scopes.tops (requests ++ [request]) = scopes.tops requests := by
  ext top
  constructor
  · rintro ⟨front, found, hprefix, rfl⟩
    rcases List.prefix_concat_iff.mp hprefix with heq | hprefix
    · have hlast := (List.append_inj' heq rfl).2
      exact absurd (List.cons.inj hlast).1.symm (h found)
    · exact ⟨front, found, hprefix, rfl⟩
  · rintro ⟨front, found, hprefix, rfl⟩
    exact ⟨front, found, hprefix.trans (List.prefix_append ..), rfl⟩

-- From the end of the run: the last request may come to a new top, all others were there before.
theorem isGreatest_frameSize (scopes : Scopes) (requests : List Request) :
    IsGreatest (insert scopes.frameSize.toNat (scopes.tops requests))
      (scopes.serve requests).2.frameSize.toNat := by
  induction requests using List.reverseRecOn with
  | nil =>
      have hnone : scopes.tops [] = ∅ := by
        ext top
        simp [tops]
      simp [hnone, serve]
  | append_singleton requests request ih =>
      have hlast : (scopes.serve (requests ++ [request])).2 =
          ((scopes.serve requests).2.answer request).2 := by
        simp [serve_append, serve]
      rcases ((scopes.serve requests).2.serves_answer request).frameSize_eq with
        ⟨size, rfl, hsize⟩ | ⟨hother, hsize⟩
      · rw [tops_concat_allocate, Set.insert_comm, hlast, hsize, max_comm]
        exact ih.insert _
      · rw [tops_concat_of_ne _ _ hother, hlast, hsize]
        exact ih

-- The slots of the open scopes fill the frame of the innermost one, and those of the scopes around
-- it fill theirs, which end where the block began.
inductive Laid : List (List Slot) → List Scope → Prop
  | nil : Laid [] []
  | cons {slots : List Slot} {around : List (List Slot)} {scope : Scope} {outer : List Scope}
      (hslots : Slot.Tiled (slots ++ around.flatten) scope.frame.offset.toNat)
      (hrest : Laid around outer) : Laid (slots :: around) (scope :: outer)

theorem Laid.tiled {slots : List (List Slot)} (h : Laid slots scopes.chain) :
    Slot.Tiled slots.flatten scopes.current.frame.offset.toNat := by
  cases h with
  | cons hslots hrest => exact hslots

theorem Serves.laid {slots : List (List Slot)} (h : scopes.Serves request answer next)
    (hlaid : Laid slots scopes.chain) (hroom : Slot.total slots.flatten + request.size < 2 ^ 32) :
    Laid (answer.note slots) next.chain := by
  cases h with
  | enter =>
      cases hlaid with
      | cons hslots hrest => exact .cons hslots (.cons hslots hrest)
  | leave houter =>
      cases hlaid with
      | cons hslots hrest =>
          rw [houter] at hrest
          exact hrest
  | allocate size =>
      have htotal := hlaid.tiled.total_eq
      cases hlaid with
      | cons hslots hrest =>
          have hstop : (Slot.mk scopes.current.frame.offset size).stop =
              (scopes.current.frame.offset + size).toNat := by
            rw [UInt32.toNat_add, Nat.mod_eq_of_lt (htotal ▸ hroom)]
            rfl
          refine .cons ?_ hrest
          exact hstop ▸ .cons hslots
  | declare hnew =>
      cases hlaid with
      | cons hslots hrest => exact .cons hslots hrest
  | leaveRoot | declareAgain => exact hlaid

private theorem Serves.total_le (h : scopes.Serves request answer next) (slots : List (List Slot)) :
    Slot.total (answer.note slots).flatten ≤ Slot.total slots.flatten + request.size := by
  cases h with
  | leave houter =>
      cases slots with
      | nil => exact Nat.zero_le _
      | cons first slots =>
          rw [Answer.note, List.tail_cons, List.flatten_cons, Slot.total_append]
          omega
  | allocate size =>
      cases slots with
      | nil => exact Nat.zero_le _
      | cons first slots =>
          rw [Answer.note, List.modifyHead_cons, List.flatten_cons, List.cons_append,
            Slot.total_cons, ← List.flatten_cons]
          exact Nat.le_of_eq (Nat.add_comm _ _)
  | _ => exact Nat.le_refl _

theorem Laid.serve {slots : List (List Slot)} (requests : List Request)
    (hlaid : Laid slots scopes.chain)
    (hroom : Slot.total slots.flatten + Request.total requests < 2 ^ 32) :
    Laid ((scopes.serve requests).1.foldl Answer.note slots) (scopes.serve requests).2.chain := by
  induction requests generalizing scopes slots with
  | nil => exact hlaid
  | cons request rest ih =>
      have hsum : Request.total (request :: rest) = request.size + Request.total rest := by
        simp [Request.total]
      have hserves := scopes.serves_answer request
      have hless := hserves.total_le slots
      exact ih (hserves.laid hlaid (by omega)) (by omega)

-- No open scope has come further than the frame is large.
def Contained (scopes : Scopes) : Prop :=
  ∀ scope ∈ scopes.chain, scope.frame.offset.toNat ≤ scopes.frameSize.toNat

theorem Serves.contained (h : scopes.Serves request answer next) (hscopes : scopes.Contained) :
    next.Contained := by
  have hcurrent := hscopes scopes.current (List.mem_cons_self ..)
  cases h with
  | enter => exact List.forall_mem_cons.mpr ⟨hcurrent, hscopes⟩
  | leave houter => exact fun scope hscope => hscopes scope (.tail _ (houter ▸ hscope))
  | allocate size =>
      have hsize : (scopes.allocate size).2.frameSize.toNat = max scopes.frameSize.toNat
          (scopes.allocate size).2.current.frame.offset.toNat := toNat_max _ _
      intro scope hscope
      rcases List.mem_cons.mp hscope with rfl | hscope
      · omega
      · have hbefore := hscopes scope (.tail _ hscope)
        omega
  | declare hnew =>
      exact List.forall_mem_cons.mpr ⟨hcurrent, fun scope hscope => hscopes scope (.tail _ hscope)⟩
  | leaveRoot | declareAgain => exact hscopes

theorem Contained.serve (requests : List Request) (hscopes : scopes.Contained) :
    (scopes.serve requests).2.Contained := by
  induction requests generalizing scopes with
  | nil => exact hscopes
  | cons request rest ih => exact ih ((scopes.serves_answer request).contained hscopes)

end Scopes

end Sluice
