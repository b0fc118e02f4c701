import Mathlib
import Sluice.Proofs.Arena

namespace Sluice

section Simulation

variable {Table Other : Type}

-- Tables that give the same answers, and go on to do so.
structure Declares.Agree [Declares Table] [Declares Other] (related : Table → Other → Prop) :
    Prop where
  fresh : related fresh fresh
  declare : ∀ {table : Table} {other : Other}, related table other → ∀ name binding position,
    (declare table name binding position).1 = (declare other name binding position).1 ∧
      related (declare table name binding position).2 (declare other name binding position).2

-- The cells hold related tables, and the same beside them.
structure Cell.Shows (related : Table → Other → Prop) (cell : Cell Table) (other : Cell Other) :
    Prop where
  this : cell.this = other.this
  parent : cell.parent = other.parent
  table : related cell.table other.table
  frame : cell.frame = other.frame

namespace Arena

structure Shows (related : Table → Other → Prop) (arena : Arena Table) (other : Arena Other) :
    Prop where
  size : arena.cells.size = other.cells.size
  current : arena.current = other.current
  frameSize : arena.frameSize = other.frameSize
  cells : ∀ place : Nat,
    Option.Rel (Cell.Shows related) arena.cells[place]? other.cells[place]?

namespace Shows

variable {related : Table → Other → Prop} {arena : Arena Table} {other : Arena Other}

theorem withCurrent (h : arena.Shows related other)
    {use : Cell Table → Except Fault Answer × Arena Table}
    {useOther : Cell Other → Except Fault Answer × Arena Other}
    (huse : ∀ cell cell', cell.Shows related cell' →
      (use cell).1 = (useOther cell').1 ∧ (use cell).2.Shows related (useOther cell').2) :
    (arena.withCurrent use).1 = (other.withCurrent useOther).1 ∧
      (arena.withCurrent use).2.Shows related (other.withCurrent useOther).2 := by
  have hcells := h.cells other.current.toNat
  rw [Arena.withCurrent, Arena.withCurrent, h.current]
  generalize arena.cells[other.current.toNat]? = cell at hcells ⊢
  generalize other.cells[other.current.toNat]? = cell' at hcells ⊢
  cases hcells with
  | some hcell => exact huse _ _ hcell
  | none => exact ⟨rfl, h⟩

theorem replace (h : arena.Shows related other) {cell : Cell Table} {cell' : Cell Other}
    (hcell : cell.Shows related cell') :
    (arena.replace cell).Shows related (other.replace cell') := by
  refine ⟨?_, h.current, h.frameSize, ?_⟩
  · simp only [Arena.replace, Array.size_setIfInBounds, h.size]
  · intro place
    simp only [Arena.replace, Array.getElem?_setIfInBounds, h.current, h.size]
    by_cases hplace : other.current.toNat = place
    · rw [if_pos hplace, if_pos hplace]
      by_cases hbound : other.current.toNat < other.cells.size
      · rw [if_pos hbound, if_pos hbound]
        exact .some hcell
      · rw [if_neg hbound, if_neg hbound]
        exact .none
    · rw [if_neg hplace, if_neg hplace]
      exact h.cells place

theorem push (h : arena.Shows related other) {cell : Cell Table} {cell' : Cell Other}
    (hcell : cell.Shows related cell') (current : UInt32) :
    Shows related { arena with cells := arena.cells.push cell, current := current }
      { other with cells := other.cells.push cell', current := current } := by
  refine ⟨?_, rfl, h.frameSize, ?_⟩
  · simp only [Array.size_push, h.size]
  · intro place
    simp only [Array.getElem?_push, h.size]
    by_cases hplace : place = other.cells.size
    · rw [if_pos hplace, if_pos hplace]
      exact .some hcell
    · rw [if_neg hplace, if_neg hplace]
      exact h.cells place

theorem pop (h : arena.Shows related other) :
    Shows related { arena with cells := arena.cells.pop }
      { other with cells := other.cells.pop } := by
  refine ⟨?_, h.current, h.frameSize, ?_⟩
  · simp only [Array.size_pop, h.size]
  · intro place
    simp only [Array.getElem?_pop, h.size]
    by_cases hplace : place < other.cells.size - 1
    · rw [if_pos hplace, if_pos hplace]
      exact h.cells place
    · rw [if_neg hplace, if_neg hplace]
      exact .none

theorem back? (h : arena.Shows related other) :
    arena.cells.back?.map Cell.this = other.cells.back?.map Cell.this := by
  have hlast := h.cells (other.cells.size - 1)
  rw [Array.back?_eq_getElem?, Array.back?_eq_getElem?, h.size]
  generalize arena.cells[other.cells.size - 1]? = cell at hlast ⊢
  generalize other.cells[other.cells.size - 1]? = cell' at hlast ⊢
  cases hlast with
  | some hcell => rw [Option.map_some, Option.map_some, hcell.this]
  | none => rfl

variable [Declares Table] [Declares Other]

-- One request, by what it does to the cells.
theorem answer (h : arena.Shows related other) (hagree : Declares.Agree related)
    (request : Request) :
    (arena.answer request).1 = (other.answer request).1 ∧
      (arena.answer request).2.Shows related (other.answer request).2 := by
  cases request with
  | enter =>
      refine h.withCurrent fun cell cell' hcell => ?_
      have hnew : Cell.Shows related
          ⟨.ofNat other.cells.size, some other.current, Declares.fresh, cell.frame⟩
          ⟨.ofNat other.cells.size, some other.current, Declares.fresh, cell'.frame⟩ :=
        ⟨rfl, rfl, hagree.fresh, hcell.frame⟩
      rw [h.size, h.current]
      exact ⟨rfl, h.push hnew _⟩
  | leave =>
      refine h.withCurrent fun cell cell' hcell => ?_
      rw [hcell.parent, h.back?, h.current]
      cases cell'.parent with
      | none => exact ⟨rfl, h⟩
      | some parent =>
          dsimp only
          split
          · exact ⟨rfl, h.pop.size, rfl, h.frameSize, h.pop.cells⟩
          · exact ⟨rfl, h.pop.size, rfl, h.frameSize, h.pop.cells⟩
  | allocate size =>
      refine h.withCurrent fun cell cell' hcell => ?_
      rw [hcell.frame, h.frameSize]
      have hgrown : Cell.Shows related { cell with frame := (cell'.frame.allocate size).2 }
          { cell' with frame := (cell'.frame.allocate size).2 } :=
        ⟨hcell.this, hcell.parent, hcell.table, rfl⟩
      have hnext := h.replace hgrown
      exact ⟨rfl, hnext.size, hnext.current, rfl, hnext.cells⟩
  | declare name binding position =>
      refine h.withCurrent fun cell cell' hcell => ?_
      obtain ⟨hanswer, htable⟩ := hagree.declare hcell.table name binding position
      exact ⟨congrArg Except.ok hanswer,
        h.replace ⟨hcell.this, hcell.parent, htable, hcell.frame⟩⟩

theorem serve (h : arena.Shows related other) (hagree : Declares.Agree related)
    (requests : List Request) :
    (arena.serve requests).1 = (other.serve requests).1 ∧
      (arena.serve requests).2.Shows related (other.serve requests).2 := by
  induction requests generalizing arena other with
  | nil => exact ⟨rfl, h⟩
  | cons request rest ih =>
      obtain ⟨hfirst, hnext⟩ := h.answer hagree request
      obtain ⟨hothers, hlast⟩ := ih hnext
      exact ⟨List.cons_eq_cons.mpr ⟨hfirst, hothers⟩, hlast⟩

end Shows

end Arena

end Simulation

-- The overloads of every name, by the name.
abbrev Overloads : Type := Std.HashMap String (List Binding)

namespace Overloads

def of (table : Overloads) (name : String) : List Binding := table.getD name []

-- An entry for the name is made before it is known whether the binding may be added, and stays if it
-- is refused.
instance : Declares Overloads where
  fresh := ∅
  declare table name binding position :=
    let opened : Overloads := table.insertIfNew name []
    match (opened.of name).find? fun other => other.ty.same binding.ty with
    | some other => (.refused (.located position (.alreadyBound name other.ty)), opened)
    | none => (.declared, opened.insert name (opened.of name ++ [binding]))

-- An entry without bindings says the same as none.
theorem of_insertIfNew (table : Overloads) (name other : String) :
    of (table.insertIfNew name []) other = table.of other := by
  simp only [of, Std.HashMap.getD_insertIfNew, beq_iff_eq]
  split
  · rename_i hnew
    obtain ⟨rfl, hnew⟩ := hnew
    rw [Std.HashMap.getD_eq_fallback hnew]
  · rfl

theorem of_insert (table : Overloads) (name other : String) (bindings : List Binding) :
    of (table.insert name bindings) other =
      if name = other then bindings else table.of other := by
  simp only [of, Std.HashMap.getD_insert, beq_iff_eq]

-- The table has the bindings of the rows, name by name.
def Holds (table : Overloads) (rows : Rows) : Prop := ∀ name, table.of name = rows.overloads name

end Overloads

theorem Scope.overloads_concat (scope : Scope) (name other : String) (binding : Binding) :
    Scope.overloads { scope with bindings := scope.bindings ++ [(name, binding)] } other =
      if name = other then scope.overloads other ++ [binding] else scope.overloads other := by
  by_cases hname : name = other
  · simp [Scope.overloads, hname]
  · simp [Scope.overloads, hname]

theorem Rows.overloads_concat (rows : Rows) (name other : String) (binding : Binding) :
    Rows.overloads (rows ++ [(name, binding)]) other =
      if name = other then rows.overloads other ++ [binding] else rows.overloads other :=
  Scope.overloads_concat ⟨rows, ⟨0⟩⟩ name other binding

theorem Overloads.agree_holds : Declares.Agree Holds := by
  refine ⟨fun name => Std.HashMap.getD_empty, ?_⟩
  intro table rows h name binding position
  have hopened : Holds (table.insertIfNew name []) rows :=
    fun other => (table.of_insertIfNew name other).trans (h other)
  cases hfind : (rows.overloads name).find? fun other => other.ty.same binding.ty with
  | some other =>
      rw [Rows.declare_of_find?_eq_some hfind]
      simp only [Declares.declare, hopened name, hfind]
      exact ⟨trivial, hopened⟩
  | none =>
      rw [Rows.declare_of_find?_eq_none hfind]
      simp only [Declares.declare, hopened name, hfind]
      refine ⟨trivial, fun other => ?_⟩
      rw [of_insert, hopened other, Rows.overloads_concat]
      by_cases hname : name = other
      · rw [if_pos hname, if_pos hname, hname]
      · rw [if_neg hname, if_neg hname]

namespace Arena

-- What is found from a place on: the first scope along the links whose overloads of the name have
-- one to pick.
inductive Finds (arena : Arena Overloads) (name : String) (pick : List Binding → Option Binding) :
    Option UInt32 → Option Binding → Prop
  | nowhere : Finds arena name pick none none
  | here {place : UInt32} {cell : Cell Overloads} {found : Binding}
      (hcell : arena.cells[place.toNat]? = some cell)
      (hpick : pick (cell.table.of name) = some found) :
      Finds arena name pick (some place) (some found)
  | outwards {place : UInt32} {cell : Cell Overloads} {result : Option Binding}
      (hcell : arena.cells[place.toNat]? = some cell) (hpick : pick (cell.table.of name) = none)
      (hrest : Finds arena name pick cell.parent result) :
      Finds arena name pick (some place) result

def Looks (arena : Arena Overloads) (name : String) (result : Option Binding) : Prop :=
  arena.Finds name List.head? (some arena.current) result

def LooksMatching (arena : Arena Overloads) (name : String) (pattern : Ty)
    (result : Option Binding) : Prop :=
  arena.Finds name (List.find? fun binding => pattern.matches? binding.ty = some true)
    (some arena.current) result

theorem Finds.unique {arena : Arena Overloads} {name : String} {pick : List Binding → Option Binding}
    {start : Option UInt32} {result other : Option Binding} (h : arena.Finds name pick start result)
    (hother : arena.Finds name pick start other) : result = other := by
  induction h with
  | nowhere =>
      cases hother
      rfl
  | here hcell hpick =>
      cases hother with
      | here hcell' hpick' =>
          cases hcell.symm.trans hcell'
          exact hpick.symm.trans hpick'
      | outwards hcell' hpick' hrest' =>
          cases hcell.symm.trans hcell'
          cases hpick.symm.trans hpick'
  | outwards hcell hpick hrest ih =>
      cases hother with
      | here hcell' hpick' =>
          cases hcell.symm.trans hcell'
          cases hpick.symm.trans hpick'
      | outwards hcell' hpick' hrest' =>
          cases hcell.symm.trans hcell'
          exact ih hrest'

theorem getElem?_cellsOf_append (front : List Scope) (scope : Scope) (outer : List Scope) :
    (cellsOf (front ++ scope :: outer))[outer.length]? =
      some (cellOf outer.length scope) := by
  induction front with
  | nil => rw [List.nil_append, cellsOf, Array.getElem?_push, size_cellsOf, if_pos rfl]
  | cons first front ih =>
      have hinner : outer.length ≠ (front ++ scope :: outer).length := by
        simp only [List.length_append, List.length_cons]
        omega
      rw [List.cons_append, cellsOf, Array.getElem?_push, size_cellsOf, if_neg hinner,
        ih]

-- The storage holds the scopes, from the outside in.
structure Records (arena : Arena Overloads) (scopes : Scopes) : Prop where
  places : scopes.depth ≤ UInt32.size
  shows : arena.Shows Overloads.Holds (.ofScopes scopes)

theorem records_empty : (ofRoot Declares.fresh).Records .empty := by
  refine ⟨by decide, rfl, rfl, rfl, ?_⟩
  intro place
  cases place with
  | zero => exact .some ⟨rfl, rfl, Overloads.agree_holds.fresh, rfl⟩
  | succ place => exact .none

namespace Records

variable {arena : Arena Overloads} {scopes : Scopes}

theorem serve (h : arena.Records scopes) {requests : List Request}
    (hplaces : scopes.Addressable requests) :
    (arena.serve requests).1 = (scopes.serve requests).1.map .ok ∧
      (arena.serve requests).2.Records (scopes.serve requests).2 := by
  obtain ⟨hanswers, hshows⟩ := h.shows.serve Overloads.agree_holds requests
  rw [serve_ofScopes hplaces] at hanswers hshows
  exact ⟨hanswers, hplaces requests List.prefix_rfl, hshows⟩

theorem answer (h : arena.Records scopes) {request : Request} (hrequest : request ≠ .enter) :
    (arena.answer request).1 = .ok (scopes.answer request).1 ∧
      (arena.answer request).2.Records (scopes.answer request).2 := by
  obtain ⟨hanswer, hshows⟩ := h.shows.answer Overloads.agree_holds request
  rw [answer_ofScopes h.places fun henter => absurd henter hrequest] at hanswer hshows
  have hdepth := (scopes.serves_answer request).depth_le hrequest
  exact ⟨hanswer, hdepth.trans h.places, hshows⟩

-- The place of the first of the scopes that are left to search.
private theorem finds_suffix (h : arena.Records scopes) (name : String)
    (pick : List Binding → Option Binding) (front rest : List Scope)
    (hchain : scopes.chain = front ++ rest) :
    arena.Finds name pick
      (if rest.length = 0 then none else some (.ofNat (rest.length - 1)))
      (rest.findSome? fun scope => pick (scope.overloads name)) := by
  induction rest generalizing front with
  | nil => exact .nowhere
  | cons scope outer ih =>
      have hplace : (UInt32.ofNat outer.length).toNat = outer.length := by
        have hplaces := h.places
        rw [Scopes.depth, hchain, List.length_append, List.length_cons] at hplaces
        exact UInt32.toNat_ofNat_of_lt' (by omega)
      have hstored : (ofScopes scopes).cells[outer.length]? =
          some (cellOf outer.length scope) := by
        rw [ofScopes, hchain, getElem?_cellsOf_append]
      have hcells := h.shows.cells outer.length
      rw [hstored] at hcells
      generalize hcell : arena.cells[outer.length]? = cell at hcells
      rw [← hplace] at hcell
      cases hcells with
      | some hshows =>
          have hrest := ih (front ++ [scope]) (by simpa using hchain)
          rw [List.length_cons, if_neg (Nat.succ_ne_zero _), Nat.add_sub_cancel,
            List.findSome?_cons]
          have hoverloads := hshows.table name
          cases hpick : pick (scope.overloads name) with
          | some found => exact .here hcell (by rw [hoverloads]; exact hpick)
          | none =>
              refine .outwards hcell (by rw [hoverloads]; exact hpick) ?_
              rw [hshows.parent]
              exact hrest

theorem finds_iff (h : arena.Records scopes) (name : String)
    (pick : List Binding → Option Binding) (result : Option Binding) :
    arena.Finds name pick (some arena.current) result ↔
      result = scopes.chain.findSome? fun scope => pick (scope.overloads name) := by
  have hfinds := h.finds_suffix name pick [] scopes.chain rfl
  have hstart : (if scopes.chain.length = 0 then none
      else some (UInt32.ofNat (scopes.chain.length - 1))) = some arena.current := by
    rw [h.shows.current]
    rfl
  rw [hstart] at hfinds
  constructor
  · intro hresult
    exact hresult.unique hfinds
  · rintro rfl
    exact hfinds

theorem looks_iff (h : arena.Records scopes) (name : String) (result : Option Binding) :
    arena.Looks name result ↔ result = scopes.lookup name :=
  h.finds_iff name _ result

theorem looksMatching_iff (h : arena.Records scopes) (name : String) (pattern : Ty)
    (result : Option Binding) :
    arena.LooksMatching name pattern result ↔ result = scopes.lookupMatching name pattern :=
  h.finds_iff name _ result

end Records

end Arena

end Sluice
