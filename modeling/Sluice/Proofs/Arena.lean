import Mathlib
import Sluice.Proofs.Nesting

namespace Sluice

-- The bindings of one scope, in whatever form they are kept.
class Declares (Table : Type) where
  fresh : Table
  declare : Table → String → Binding → Position → Answer × Table

-- A scope with its own place and that of the scope around it.
structure Cell (Table : Type) where
  this : UInt32
  parent : Option UInt32
  table : Table
  frame : Frame

inductive Fault
  | missing (place : UInt32)
  | outOfOrder

-- Scopes in a storage that grows and shrinks at its end, linked by the places of the scopes around
-- them.
structure Arena (Table : Type) where
  cells : Array (Cell Table)
  current : UInt32
  frameSize : UInt32

namespace Arena

section Requests

variable {Table : Type}

def ofRoot (table : Table) : Arena Table := ⟨#[⟨0, none, table, ⟨0⟩⟩], 0, 0⟩

def withCurrent (arena : Arena Table) (use : Cell Table → Except Fault Answer × Arena Table) :
    Except Fault Answer × Arena Table :=
  match arena.cells[arena.current.toNat]? with
  | none => (.error (.missing arena.current), arena)
  | some cell => use cell

def replace (arena : Arena Table) (cell : Cell Table) : Arena Table :=
  { arena with cells := arena.cells.setIfInBounds arena.current.toNat cell }

-- The place of a new scope is kept in 32 bits.
def enter [Declares Table] (arena : Arena Table) : Except Fault Answer × Arena Table :=
  arena.withCurrent fun cell =>
    let place := UInt32.ofNat arena.cells.size
    (.ok (.entered place.toNat), { arena with
      cells := arena.cells.push ⟨place, some arena.current, Declares.fresh, cell.frame⟩
      current := place })

-- The last scope is gone by the time it is compared.
def leave (arena : Arena Table) : Except Fault Answer × Arena Table :=
  arena.withCurrent fun cell =>
    match cell.parent with
    | none => (.ok (.refused (.plain .leavingRoot)), arena)
    | some parent =>
        let shorter := { arena with cells := arena.cells.pop }
        if arena.cells.back?.map Cell.this = some arena.current then
          (.ok .left, { shorter with current := parent })
        else
          (.error .outOfOrder, shorter)

def allocate (arena : Arena Table) (size : UInt32) : Except Fault Answer × Arena Table :=
  arena.withCurrent fun cell =>
    let (offset, frame) := cell.frame.allocate size
    (.ok (.allocated ⟨offset, size⟩), { arena.replace { cell with frame := frame } with
      frameSize := max arena.frameSize frame.offset })

def declare [Declares Table] (arena : Arena Table) (name : String) (binding : Binding)
    (position : Position) : Except Fault Answer × Arena Table :=
  arena.withCurrent fun cell =>
    let (answer, table) := Declares.declare cell.table name binding position
    (.ok answer, arena.replace { cell with table := table })

def answer [Declares Table] (arena : Arena Table) : Request → Except Fault Answer × Arena Table
  | .enter => arena.enter
  | .leave => arena.leave
  | .allocate size => arena.allocate size
  | .declare name binding position => arena.declare name binding position

def serve [Declares Table] (arena : Arena Table) :
    List Request → List (Except Fault Answer) × Arena Table
  | [] => ([], arena)
  | request :: rest =>
      let first := arena.answer request
      let others := first.2.serve rest
      (first.1 :: others.1, others.2)

-- The place that is reached by so many links from the current scope.
def ancestor (arena : Arena Table) : Nat → Option UInt32
  | 0 => some arena.current
  | steps + 1 =>
      (arena.ancestor steps).bind fun place => arena.cells[place.toNat]?.bind Cell.parent

-- The current scope is the last one, and the links lead from it through all places to the root.
structure Linked (arena : Arena Table) : Prop where
  last : arena.current.toNat + 1 = arena.cells.size
  places : ∀ place (cell : Cell Table), arena.cells[place]? = some cell → cell.this.toNat = place
  path : ∀ steps < arena.cells.size,
    (arena.ancestor steps).map UInt32.toNat = some (arena.current.toNat - steps)
  root : ∃ cell : Cell Table, arena.cells[0]? = some cell ∧ cell.parent = none

end Requests

end Arena

-- Bindings in the order of their declaration, as in a scope.
abbrev Rows : Type := List (String × Binding)

def Rows.overloads (rows : Rows) (name : String) : List Binding :=
  Scope.overloads ⟨rows, ⟨0⟩⟩ name

instance : Declares Rows where
  fresh := []
  declare rows name binding position :=
    match (rows.overloads name).find? fun other => other.ty.same binding.ty with
    | some other => (.refused (.located position (.alreadyBound name other.ty)), rows)
    | none => (.declared, rows ++ [(name, binding)])

namespace Rows

variable {rows : Rows} {name : String} {binding : Binding} {position : Position}

theorem declare_of_find?_eq_some {other : Binding}
    (h : (rows.overloads name).find? (fun other => other.ty.same binding.ty) = some other) :
    Declares.declare rows name binding position =
      (.refused (.located position (.alreadyBound name other.ty)), rows) := by
  simp only [Declares.declare, h]

theorem declare_of_find?_eq_none
    (h : (rows.overloads name).find? (fun other => other.ty.same binding.ty) = none) :
    Declares.declare rows name binding position = (.declared, rows ++ [(name, binding)]) := by
  simp only [Declares.declare, h]

end Rows

def Cell.scope (cell : Cell Rows) : Scope := ⟨cell.table, cell.frame⟩

namespace Scopes

-- No more scopes are ever open than there are places.
def Addressable (scopes : Scopes) (requests : List Request) : Prop :=
  ∀ front, front <+: requests → (scopes.serve front).2.depth ≤ UInt32.size

variable {scopes : Scopes} {request : Request} {requests : List Request}

theorem Addressable.depth_le (h : scopes.Addressable requests) : scopes.depth ≤ UInt32.size :=
  h [] List.nil_prefix

theorem Addressable.answer (h : scopes.Addressable (request :: requests)) :
    (scopes.answer request).2.Addressable requests := by
  intro front hfront
  exact h (request :: front) (List.prefix_cons_inj request |>.mpr hfront)

private theorem length_serve (scopes : Scopes) (requests : List Request) :
    (scopes.serve requests).1.length = requests.length := by
  induction requests generalizing scopes with
  | nil => rfl
  | cons request rest ih => rw [serve, List.length_cons, ih, List.length_cons]

theorem addressable_of_length (h : scopes.depth + requests.length ≤ UInt32.size) :
    scopes.Addressable requests := by
  intro front hfront
  have hdepth := scopes.depth_serve front
  have hentered := List.countP_le_length (p := Answer.isEntered) (l := (scopes.serve front).1)
  rw [length_serve] at hentered
  have hlength := hfront.length_le
  omega

theorem Serves.depth_le {answer : Answer} {next : Scopes} (h : scopes.Serves request answer next)
    (hrequest : request ≠ .enter) : next.depth ≤ scopes.depth := by
  cases h with
  | enter => exact absurd rfl hrequest
  | leave houter => simp [depth, chain, houter]
  | _ => exact Nat.le_refl _

theorem addressable_of_ne_enter (h : scopes.depth ≤ UInt32.size)
    (hrequests : ∀ request ∈ requests, request ≠ .enter) : scopes.Addressable requests := by
  induction requests generalizing scopes with
  | nil =>
      intro front hfront
      rwa [List.prefix_nil.mp hfront]
  | cons request rest ih =>
      obtain ⟨hfirst, hrest⟩ := List.forall_mem_cons.mp hrequests
      intro front hfront
      rcases List.prefix_cons_iff.mp hfront with rfl | ⟨tail, rfl, htail⟩
      · exact h
      · exact ih (((scopes.serves_answer request).depth_le hfirst).trans h) hrest tail htail

end Scopes

namespace Arena

-- Every scope is linked to the one before it.
def cellOf (place : Nat) (scope : Scope) : Cell Rows :=
  ⟨.ofNat place, if place = 0 then none else some (.ofNat (place - 1)), scope.bindings, scope.frame⟩

@[simp] theorem table_cellOf (place : Nat) (scope : Scope) :
    (cellOf place scope).table = scope.bindings := rfl

@[simp] theorem frame_cellOf (place : Nat) (scope : Scope) :
    (cellOf place scope).frame = scope.frame := rfl

def cellsOf : List Scope → Array (Cell Rows)
  | [] => #[]
  | scope :: outer => (cellsOf outer).push (cellOf outer.length scope)

def ofScopes (scopes : Scopes) : Arena Rows :=
  ⟨cellsOf scopes.chain, .ofNat scopes.outer.length, scopes.frameSize⟩

@[simp] theorem size_cellsOf (chain : List Scope) : (cellsOf chain).size = chain.length := by
  induction chain with
  | nil => rfl
  | cons scope outer ih => simp [cellsOf, ih]

theorem getElem?_cellsOf {chain : List Scope} {place : Nat} {cell : Cell Rows}
    (h : (cellsOf chain)[place]? = some cell) : ∃ scope, cell = cellOf place scope := by
  induction chain with
  | nil => simp [cellsOf] at h
  | cons scope outer ih =>
      rw [cellsOf, Array.getElem?_push, size_cellsOf] at h
      split at h
      · rename_i hplace
        cases h
        exact ⟨scope, hplace ▸ rfl⟩
      · exact ih h

theorem scopes_cellsOf (chain : List Scope) :
    (cellsOf chain).toList.map Cell.scope = chain.reverse := by
  induction chain with
  | nil => rfl
  | cons scope outer ih => simp [cellsOf, ih, cellOf, Cell.scope]

section Scopes

variable {scopes : Scopes} (h : scopes.depth ≤ UInt32.size)

include h

theorem toNat_current : (ofScopes scopes).current.toNat = scopes.outer.length :=
  UInt32.toNat_ofNat_of_lt' h

theorem withCurrent_ofScopes (use : Cell Rows → Except Fault Answer × Arena Rows) :
    (ofScopes scopes).withCurrent use = use (cellOf scopes.outer.length scopes.current) := by
  have hcell : (ofScopes scopes).cells[scopes.outer.length]? =
      some (cellOf scopes.outer.length scopes.current) := by
    rw [ofScopes, Scopes.chain, cellsOf, Array.getElem?_push, size_cellsOf, if_pos rfl]
  simp only [withCurrent, toNat_current h, hcell]

theorem replace_ofScopes (rows : Rows) (frame : Frame) :
    (ofScopes scopes).replace { cellOf scopes.outer.length scopes.current with
      table := rows, frame := frame } = ofScopes { scopes with current := ⟨rows, frame⟩ } := by
  have hlast : scopes.outer.length < (cellsOf scopes.chain).size := by
    simp [Scopes.chain]
  have hcells : (cellsOf scopes.chain).setIfInBounds scopes.outer.length
      (cellOf scopes.outer.length ⟨rows, frame⟩) = cellsOf (⟨rows, frame⟩ :: scopes.outer) := by
    simp only [Array.setIfInBounds, dif_pos hlast]
    simp [Scopes.chain, cellsOf, Array.set_push]
  rw [replace, toNat_current h]
  exact congrArg (Arena.mk · _ _) hcells

-- One request: the storage gives the same answer and still holds the scopes in order.
theorem answer_ofScopes {request : Request}
    (hnext : request = .enter → scopes.depth < UInt32.size) :
    (ofScopes scopes).answer request =
      (.ok (scopes.answer request).1, ofScopes (scopes.answer request).2) := by
  cases request with
  | enter =>
      have hplace : (UInt32.ofNat scopes.depth).toNat = scopes.depth :=
        UInt32.toNat_ofNat_of_lt' (hnext rfl)
      have hsize : (ofScopes scopes).cells.size = scopes.depth := size_cellsOf _
      rw [answer, enter, withCurrent_ofScopes h]
      simp only [hsize, hplace]
      rfl
  | leave =>
      rw [answer, leave, withCurrent_ofScopes h]
      obtain ⟨current, outer, frameSize⟩ := scopes
      cases outer with
      | nil => rfl
      | cons scope outer =>
          simp [Scopes.answer, Scopes.settled, Scopes.leave, ofScopes, Scopes.chain, cellsOf, cellOf]
  | allocate size =>
      rw [answer, allocate, withCurrent_ofScopes h]
      simp only [table_cellOf, frame_cellOf, replace_ofScopes h]
      rfl
  | declare name binding position =>
      rw [answer, declare, withCurrent_ofScopes h]
      have hrows : Rows.overloads scopes.current.bindings name = scopes.current.overloads name := rfl
      cases hfind : (scopes.current.overloads name).find? fun other => other.ty.same binding.ty
      · simp only [table_cellOf, frame_cellOf, Rows.declare_of_find?_eq_none (hrows ▸ hfind),
          replace_ofScopes h, Scopes.answer, Scopes.declare, hfind, Scopes.settled]
      · simp only [table_cellOf, frame_cellOf, Rows.declare_of_find?_eq_some (hrows ▸ hfind),
          replace_ofScopes h, Scopes.answer, Scopes.declare, hfind, Scopes.settled]

private theorem ancestor_ofScopes {steps : Nat} (hsteps : steps < scopes.depth) :
    (ofScopes scopes).ancestor steps = some (.ofNat (scopes.outer.length - steps)) := by
  induction steps with
  | zero => rfl
  | succ steps ih =>
      have hdepth : scopes.depth = scopes.outer.length + 1 := rfl
      have hplace : scopes.outer.length - steps < (cellsOf scopes.chain).size := by
        rw [size_cellsOf]
        exact Nat.lt_of_le_of_lt (Nat.sub_le ..) (Nat.lt_succ_self _)
      have hcell := Array.getElem?_eq_getElem hplace
      obtain ⟨scope, hscope⟩ := getElem?_cellsOf hcell
      have hinner : scopes.outer.length - steps ≠ 0 := by omega
      have hcells : (ofScopes scopes).cells = cellsOf scopes.chain := rfl
      rw [ancestor, ih (by omega), Option.bind_some, UInt32.toNat_ofNat_of_lt' (by omega), hcells,
        hcell, hscope, Option.bind_some, cellOf, if_neg hinner, Nat.sub_sub]

theorem linked_ofScopes : (ofScopes scopes).Linked := by
  have hsize : (ofScopes scopes).cells.size = scopes.depth := size_cellsOf _
  have hdepth : scopes.depth = scopes.outer.length + 1 := rfl
  constructor
  · rw [toNat_current h, hsize, hdepth]
  · intro place cell hcell
    obtain ⟨hplace, -⟩ := Array.getElem?_eq_some_iff.mp hcell
    obtain ⟨scope, rfl⟩ := getElem?_cellsOf hcell
    exact UInt32.toNat_ofNat_of_lt' (by omega)
  · intro steps hsteps
    rw [ancestor_ofScopes h (hsize ▸ hsteps), Option.map_some, toNat_current h,
      UInt32.toNat_ofNat_of_lt' (by omega)]
  · have hfirst : 0 < (ofScopes scopes).cells.size := hsize ▸ Nat.succ_pos _
    have hcell := Array.getElem?_eq_getElem hfirst
    obtain ⟨scope, hscope⟩ := getElem?_cellsOf hcell
    exact ⟨_, hcell, by rw [hscope, cellOf, if_pos rfl]⟩

theorem leave_ofScopes :
    (scopes.depth = 1 ∧
      (ofScopes scopes).leave = (.ok (.refused (.plain .leavingRoot)), ofScopes scopes)) ∨
    (1 < scopes.depth ∧ ∃ outer, (ofScopes scopes).leave = (.ok .left, outer)) := by
  have hanswer := @answer_ofScopes scopes h .leave (by simp)
  cases hleave : scopes.leave with
  | error failure =>
      obtain ⟨hdepth, rfl⟩ := Scopes.leave_eq_error_iff.mp hleave
      rw [Scopes.answer, hleave] at hanswer
      exact .inl ⟨hdepth, hanswer⟩
  | ok outer =>
      rw [Scopes.answer, hleave] at hanswer
      refine .inr ⟨?_, _, hanswer⟩
      have hdepth : scopes.depth ≠ 1 := by
        intro hdepth
        have herror := Scopes.leave_eq_error_iff.mpr ⟨hdepth, rfl⟩
        rw [hleave] at herror
        cases herror
      have hpos : scopes.depth = scopes.outer.length + 1 := rfl
      omega

end Scopes

theorem serve_ofScopes {scopes : Scopes} {requests : List Request}
    (h : scopes.Addressable requests) :
    (ofScopes scopes).serve requests =
      ((scopes.serve requests).1.map .ok, ofScopes (scopes.serve requests).2) := by
  induction requests generalizing scopes with
  | nil => rfl
  | cons request rest ih =>
      have hanswer := @answer_ofScopes scopes h.depth_le request (by
        rintro rfl
        exact h.answer.depth_le)
      simp only [serve, Scopes.serve, hanswer, ih h.answer, List.map_cons]

end Arena

-- The scopes that a compilation begins with.
def Scopes.IsRoot (root : Scopes) : Prop :=
  root = .empty ∨ ∃ library literals, Scopes.ofLibrary library = .ok (root, literals)

private theorem Scopes.IsRoot.exists_eq {root : Scopes} (h : root.IsRoot) :
    ∃ bindings, root = ⟨⟨bindings, ⟨0⟩⟩, [], 0⟩ := by
  rcases h with rfl | ⟨library, literals, h⟩
  · exact ⟨[], rfl⟩
  · obtain ⟨rows, rfl, -⟩ := ofLibrary_eq_ok h
    exact ⟨_, rfl⟩

-- Any requests at all. The slots of open scopes do not overlap as long as the sizes together fit into
-- a word. A storage of linked scopes goes along with the chain as long as the places of the open
-- scopes fit into a word; nothing else needs a condition.
theorem serve_slots_disjoint (root : Scopes) (hroot : root.IsRoot) (requests : List Request) :
    ∃ answers last, root.serve requests = (answers, last) ∧
      (Request.total requests < 2 ^ 32 →
        (Answer.live answers).flatten.Pairwise (fun slot other => Disjoint slot.bytes other.bytes) ∧
        ∀ slot ∈ (Answer.live answers).flatten, slot.bytes ⊆ .range last.frameSize.toNat) ∧
      (∀ front, front <+: requests → (root.serve front).2.frameSize ≤ last.frameSize) ∧
      IsGreatest (insert 0 (root.tops requests)) last.frameSize.toNat ∧
      last.depth + answers.countP Answer.isLeft = 1 + answers.countP Answer.isEntered ∧
      (∀ failure, last.leave = .error failure ↔
        last.depth = 1 ∧ failure = .plain .leavingRoot) ∧
      (root.Addressable requests →
        ∃ arena, (Arena.ofRoot root.current.bindings).serve requests = (answers.map .ok, arena) ∧
          arena.Linked ∧ arena.cells.size = last.depth ∧
          arena.cells.toList.map Cell.scope = last.chain.reverse ∧
          ((last.depth = 1 ∧ arena.leave = (.ok (.refused (.plain .leavingRoot)), arena)) ∨
            (1 < last.depth ∧ ∃ outer, arena.leave = (.ok .left, outer)))) := by
  obtain ⟨bindings, hscopes⟩ := hroot.exists_eq
  have harena : Arena.ofRoot root.current.bindings = .ofScopes root := by
    rw [hscopes]
    rfl
  have hfresh : root.frameSize.toNat = 0 := by
    rw [hscopes]
    rfl
  have hdepth : root.depth = 1 := by
    rw [hscopes]
    rfl
  have hlaid : Scopes.Laid [[]] root.chain := by
    rw [hscopes]
    exact .cons .nil .nil
  have hcontained : root.Contained := by
    rw [hscopes]
    simp [Scopes.Contained, Scopes.chain]
  refine ⟨_, _, rfl, ?_, ?_, ?_, ?_, fun _ => Scopes.leave_eq_error_iff, fun hplaces => ?_⟩
  · intro htotal
    have htiled := (hlaid.serve requests (by simpa [Slot.total] using htotal)).tiled
    have hinside := hcontained.serve requests _ (List.mem_cons_self ..)
    exact ⟨htiled.disjoint, htiled.bytes_subset hinside⟩
  · rintro front ⟨back, rfl⟩
    rw [Scopes.serve_append]
    exact UInt32.le_iff_toNat_le.mpr (Scopes.frameSize_le_serve _ back)
  · exact hfresh ▸ Scopes.isGreatest_frameSize root requests
  · exact hdepth ▸ Scopes.depth_serve root requests
  · have hlast := hplaces requests List.prefix_rfl
    exact ⟨_, harena ▸ Arena.serve_ofScopes hplaces, Arena.linked_ofScopes hlast,
      Arena.size_cellsOf _, Arena.scopes_cellsOf _, Arena.leave_ofScopes hlast⟩

-- Blocks side by side, a name that is bound twice, and a block in a block.
def Request.siblings : List Request :=
  [.allocate 4, .enter, .allocate 8, .leave, .enter, .allocate 2,
    .declare "x" ⟨.ofPrimitive .i32, .stack 4⟩ .start,
    .declare "x" ⟨.ofPrimitive .i32, .stack 0⟩ .start, .enter, .allocate 1]

theorem serve_slots_disjoint_siblings :
    Scopes.empty.IsRoot ∧ Request.total Request.siblings < 2 ^ 32 ∧
      Scopes.empty.Addressable Request.siblings ∧
      ∃ answers last arena, Scopes.empty.serve Request.siblings = (answers, last) ∧
        last.depth = 3 ∧ last.frameSize = 12 ∧
        (Answer.live answers).flatten = [⟨6, 1⟩, ⟨4, 2⟩, ⟨0, 4⟩] ∧
        (Answer.live answers).flatten.Pairwise
          (fun slot other => Disjoint slot.bytes other.bytes) ∧
        (Arena.ofRoot Scopes.empty.current.bindings).serve Request.siblings =
          (answers.map .ok, arena) ∧ arena.Linked := by
  have hroot : Scopes.empty.IsRoot := .inl rfl
  have htotal : Request.total Request.siblings < 2 ^ 32 := by decide
  have hplaces : Scopes.empty.Addressable Request.siblings :=
    Scopes.addressable_of_length (by decide)
  have hlive : (Answer.live (Scopes.empty.serve Request.siblings).1).flatten =
      [⟨6, 1⟩, ⟨4, 2⟩, ⟨0, 4⟩] := by decide +kernel
  have hlast : (Scopes.empty.serve Request.siblings).2.depth = 3 ∧
      (Scopes.empty.serve Request.siblings).2.frameSize = 12 := by decide +kernel
  obtain ⟨answers, last, hserve, hslots, -, -, -, -, harena⟩ :=
    serve_slots_disjoint .empty hroot Request.siblings
  obtain ⟨arena, hstored, hlinked, -⟩ := harena hplaces
  rw [hserve] at hlive hlast
  exact ⟨hroot, htotal, hplaces, answers, last, arena, hserve, hlast.1, hlast.2, hlive,
    (hslots htotal).1, hstored, hlinked⟩

end Sluice
