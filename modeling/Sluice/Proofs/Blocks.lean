import Mathlib
import Sluice.Proofs.Overloads
import Sluice.Proofs.Registration

namespace Sluice

namespace Request

-- What may stand inside of a block: every block that is opened is closed again.
inductive Balanced : List Request → Prop
  | nil : Balanced []
  | allocate {rest : List Request} (size : UInt32) (hrest : Balanced rest) :
      Balanced (.allocate size :: rest)
  | declare {rest : List Request} (name : String) (binding : Binding) (position : Position)
      (hrest : Balanced rest) : Balanced (.declare name binding position :: rest)
  | block {body rest : List Request} (hbody : Balanced body) (hrest : Balanced rest) :
      Balanced (.enter :: (body ++ .leave :: rest))

def block (body : List Request) : List Request := .enter :: (body ++ [.leave])

end Request

namespace Scopes

variable {scopes next : Scopes} {request : Request} {answer : Answer}

-- Closing a block gives the scopes back as they were, but for the size of the frame.
theorem serve_leave {inner : Scopes} (h : inner.outer = scopes.chain) (rest : List Request) :
    (inner.serve (.leave :: rest)).2 =
      (Scopes.serve { scopes with frameSize := inner.frameSize } rest).2 := by
  have hleave : inner.leave = .ok { scopes with frameSize := inner.frameSize } := by
    rw [leave, h]
    rfl
  simp only [serve, Scopes.answer, hleave, settled]

private theorem Serves.outer_declare {name : String} {binding : Binding} {position : Position}
    (h : scopes.Serves (.declare name binding position) answer next) :
    next.outer = scopes.outer := by
  cases h with
  | declare hnew => rfl
  | declareAgain hother hsame => rfl

private theorem outer_serve {requests : List Request} (h : Request.Balanced requests)
    (scopes : Scopes) : (scopes.serve requests).2.outer = scopes.outer := by
  induction h generalizing scopes with
  | nil => rfl
  | allocate size hrest ih => exact ih _
  | declare name binding position hrest ih =>
      exact (ih _).trans (scopes.serves_answer (.declare name binding position)).outer_declare
  | @block body rest hbody hrest ihbody ihrest =>
      have hinner : (scopes.enter.serve body).2.outer = scopes.chain := ihbody scopes.enter
      have hserve : (scopes.serve (.enter :: (body ++ .leave :: rest))).2 =
          ((scopes.enter.serve body).2.serve (.leave :: rest)).2 := by
        rw [serve, serve_append]
        rfl
      rw [hserve, serve_leave hinner, ihrest]

theorem serve_block {body : List Request} (h : Request.Balanced body) (scopes : Scopes) :
    ∃ frameSize,
      (scopes.serve (Request.block body)).2 = { scopes with frameSize := frameSize } := by
  have hinner : (scopes.enter.serve body).2.outer = scopes.chain := outer_serve h scopes.enter
  have hserve : (scopes.serve (Request.block body)).2 =
      ((scopes.enter.serve body).2.serve [.leave]).2 := by
    rw [Request.block, serve, serve_append]
    rfl
  exact ⟨_, hserve.trans (serve_leave hinner [])⟩

-- The overloads of a name are of different types, scope by scope.
def Distinct (scopes : Scopes) : Prop :=
  ∀ scope ∈ scopes.chain, ∀ name,
    (scope.overloads name).Pairwise fun left right => left.ty.same right.ty = false

theorem distinct_empty : empty.Distinct := by
  intro scope hscope name
  cases List.mem_singleton.mp hscope
  exact .nil

theorem Serves.distinct (h : scopes.Serves request answer next) (hscopes : scopes.Distinct) :
    next.Distinct := by
  have hcurrent := hscopes scopes.current (List.mem_cons_self ..)
  have houter : ∀ scope ∈ scopes.outer, _ := fun scope hscope => hscopes scope (.tail _ hscope)
  cases h with
  | enter => exact List.forall_mem_cons.mpr ⟨fun name => .nil, hscopes⟩
  | leave houter => exact fun scope hscope => hscopes scope (.tail _ (houter ▸ hscope))
  | allocate size => exact List.forall_mem_cons.mpr ⟨hcurrent, houter⟩
  | @declare name binding position hnew =>
      refine List.forall_mem_cons.mpr ⟨fun other => ?_, houter⟩
      rw [Scope.overloads_concat]
      by_cases hname : name = other
      · rw [if_pos hname, List.pairwise_append]
        refine ⟨hcurrent other, List.pairwise_singleton _ _, fun left hleft right hright => ?_⟩
        cases List.mem_singleton.mp hright
        exact hnew left (hname ▸ hleft)
      · rw [if_neg hname]
        exact hcurrent other
  | leaveRoot | declareAgain => exact hscopes

theorem Distinct.serve (h : scopes.Distinct) (requests : List Request) :
    (scopes.serve requests).2.Distinct := by
  induction requests generalizing scopes with
  | nil => exact h
  | cons request rest ih => exact ih ((scopes.serves_answer request).distinct h)

-- A root scope is the empty one after the declarations of all its bindings.
def declarations (rows : List (String × Binding)) : List Request :=
  rows.map fun row => .declare row.1 row.2 .start

theorem serve_declarations {rows : List (String × Binding)}
    (h : scopes.declareAll rows = .ok next) : (scopes.serve (declarations rows)).2 = next := by
  induction rows generalizing scopes with
  | nil =>
      cases h
      rfl
  | cons row rest ih =>
      obtain ⟨middle, hdeclare, h⟩ := bind_eq_ok.mp h
      have hanswer : (scopes.answer (.declare row.1 row.2 .start)).2 = middle := by
        rw [Scopes.answer, show scopes.declare row.1 row.2 .start = .ok middle from hdeclare]
        rfl
      have hrest := ih h
      rw [← hanswer] at hrest
      exact hrest

private theorem declareAll_rows {library : Library} {literals : Pool}
    (h : ofLibrary library = .ok (scopes, literals)) :
    empty.declareAll (rows library) = .ok scopes := by
  obtain ⟨found, -, hlies⟩ := ofLibrary_eq_ok h
  rw [ofLibrary_eq_declareAll fun constant hmem => (exists_of_mem_left hlies hmem).elim
    fun _ hrow => hrow.2.size] at h
  obtain ⟨all, hall, heq⟩ := map_eq_ok.mp h
  cases heq
  exact hall

theorem IsRoot.serve_declarations {root : Scopes} (h : root.IsRoot) :
    (empty.serve (declarations root.current.bindings)).2 = root := by
  rcases h with rfl | ⟨library, literals, h⟩
  · rfl
  · have hrows : root.current.bindings = rows library := by
      rw [(ofLibrary_eq_rows h).1]
      rfl
    rw [hrows]
    exact Scopes.serve_declarations (declareAll_rows h)

theorem lookupMatching_eq_find? (scopes : Scopes) (name : String) (pattern : Ty) :
    scopes.lookupMatching name pattern =
      (scopes.chain.flatMap fun scope => scope.overloads name).find? fun binding =>
        pattern.matches? binding.ty = some true := by
  rw [List.find?_flatMap]
  rfl

-- Every name is found alike, and so is the next slot.
structure Alike (scopes other : Scopes) : Prop where
  lookup : ∀ name, scopes.lookup name = other.lookup name
  matching : ∀ name pattern, scopes.lookupMatching name pattern = other.lookupMatching name pattern
  next : ∀ size, (scopes.allocate size).1 = (other.allocate size).1

theorem alike_frameSize (scopes : Scopes) (frameSize : UInt32) :
    Alike { scopes with frameSize := frameSize } scopes :=
  ⟨fun _ => rfl, fun _ _ => rfl, fun _ => rfl⟩

end Scopes

namespace Arena

structure Alike (arena other : Arena Overloads) : Prop where
  looks : ∀ name result, arena.Looks name result ↔ other.Looks name result
  matching : ∀ name pattern result,
    arena.LooksMatching name pattern result ↔ other.LooksMatching name pattern result
  next : ∀ size, (arena.allocate size).1 = (other.allocate size).1

-- The root scope, declared binding by binding.
def ofDeclared (root : Scopes) : Arena Overloads :=
  ((ofRoot Declares.fresh).serve (Scopes.declarations root.current.bindings)).2

variable {arena other : Arena Overloads} {scopes next : Scopes}

private theorem records_ofDeclared {root : Scopes} (h : root.IsRoot) :
    (ofDeclared root).Records root := by
  have hplaces : Scopes.empty.Addressable (Scopes.declarations root.current.bindings) := by
    apply Scopes.addressable_of_ne_enter (by decide)
    intro request hrequest
    obtain ⟨row, -, rfl⟩ := List.mem_map.mp hrequest
    simp
  have hroot := (records_empty.serve hplaces).2
  rwa [h.serve_declarations] at hroot

theorem Records.alike (h : arena.Records scopes) (hother : other.Records next)
    (halike : scopes.Alike next) : arena.Alike other := by
  constructor
  · intro name result
    rw [h.looks_iff, hother.looks_iff, halike.lookup]
  · intro name pattern result
    rw [h.looksMatching_iff, hother.looksMatching_iff, halike.matching]
  · intro size
    have hrequest : Request.allocate size ≠ .enter := by simp
    have hleft := (h.answer hrequest).1
    have hright := (hother.answer hrequest).1
    rw [Scopes.answer, halike.next] at hleft
    exact hleft.trans hright.symm

end Arena

-- Any requests at all, then one block or one declaration. A storage with tables and links goes
-- along, in which the places of closed scopes are used again, as long as the places of the open ones
-- fit into a word.
theorem serve_block_restores (root : Scopes) (hroot : root.IsRoot) (requests : List Request) :
    ∃ answers state, root.serve requests = (answers, state) ∧
      (∀ body, Request.Balanced body → (state.serve (Request.block body)).2.Alike state) ∧
      (∀ scope ∈ state.chain, ∀ name,
        (scope.overloads name).Pairwise fun left right => left.ty.same right.ty = false) ∧
      (∀ name pattern, state.lookupMatching name pattern =
        (state.chain.flatMap fun scope => scope.overloads name).find? fun binding =>
          pattern.matches? binding.ty = some true) ∧
      (root.Addressable requests →
        ∃ arena, (Arena.ofDeclared root).serve requests = (answers.map .ok, arena) ∧
          (∀ name result, arena.Looks name result ↔ result = state.lookup name) ∧
          (∀ name pattern result,
            arena.LooksMatching name pattern result ↔
              result = state.lookupMatching name pattern) ∧
          (∀ body, Request.Balanced body → state.Addressable (Request.block body) →
            (arena.serve (Request.block body)).2.Alike arena) ∧
          ∀ name binding position failure, state.declare name binding position = .error failure →
            (arena.declare name binding position).1 = .ok (.refused failure) ∧
            (arena.declare name binding position).2.Alike arena) := by
  have hdistinct : root.Distinct := by
    rw [← hroot.serve_declarations]
    exact Scopes.distinct_empty.serve _
  have hblock : ∀ body, Request.Balanced body →
      ((root.serve requests).2.serve (Request.block body)).2.Alike (root.serve requests).2 := by
    intro body hbody
    obtain ⟨frameSize, hblock⟩ := Scopes.serve_block hbody (root.serve requests).2
    rw [hblock]
    exact Scopes.alike_frameSize _ frameSize
  refine ⟨_, _, rfl, hblock, hdistinct.serve requests, Scopes.lookupMatching_eq_find? _, ?_⟩
  intro hplaces
  obtain ⟨hanswers, hrecords⟩ := (Arena.records_ofDeclared hroot).serve hplaces
  refine ⟨_, Prod.ext hanswers rfl, hrecords.looks_iff, hrecords.looksMatching_iff, ?_, ?_⟩
  · intro body hbody hinside
    exact (hrecords.serve hinside).2.alike hrecords (hblock body hbody)
  · intro name binding position failure hdeclare
    have hrefused : (root.serve requests).2.answer (.declare name binding position) =
        (.refused failure, (root.serve requests).2) := by
      rw [Scopes.answer, hdeclare]
      rfl
    have hrequest : Request.declare name binding position ≠ .enter := by simp
    have hanswer := hrecords.answer hrequest
    rw [hrefused] at hanswer
    exact ⟨hanswer.1, hanswer.2.alike hrecords (Scopes.alike_frameSize _ _)⟩

-- Overloads in two scopes, and a block that declares one of them twice and opens another block.
def Request.overloaded : List Request :=
  [.declare "f" ⟨.ofPrimitive .i32, .stack 0⟩ .start,
    .declare "f" ⟨.ofPrimitive .f64, .stack 4⟩ .start, .allocate 12, .enter,
    .declare "f" ⟨.ofPrimitive .i8, .stack 12⟩ .start, .allocate 1]

def Request.scratched : List Request :=
  [.declare "f" ⟨.ofPrimitive .f64, .stack 13⟩ .start,
    .declare "f" ⟨.ofPrimitive .f64, .stack 21⟩ .start, .enter, .allocate 8, .leave, .allocate 4]

theorem serve_block_restores_overloaded :
    Scopes.empty.IsRoot ∧ Request.Balanced Request.scratched ∧
      Scopes.empty.Addressable Request.overloaded ∧
      ∃ state arena failure, (Scopes.empty.serve Request.overloaded).2 = state ∧
        state.Addressable (Request.block Request.scratched) ∧
        ((Arena.ofDeclared .empty).serve Request.overloaded).2 = arena ∧
        arena.Looks "f" (some ⟨.ofPrimitive .i8, .stack 12⟩) ∧
        arena.LooksMatching "f" (.ofPrimitive .f64) (some ⟨.ofPrimitive .f64, .stack 4⟩) ∧
        (state.serve (Request.block Request.scratched)).2.lookupMatching "f" (.ofPrimitive .f64) =
          some ⟨.ofPrimitive .f64, .stack 4⟩ ∧
        ((state.serve (Request.block Request.scratched)).2.allocate 2).1 = 13 ∧
        (arena.serve (Request.block Request.scratched)).2.Alike arena ∧
        state.declare "f" ⟨.ofPrimitive .i8, .stack 0⟩ .start = .error failure ∧
        (arena.declare "f" ⟨.ofPrimitive .i8, .stack 0⟩ .start).2.Alike arena := by
  have hroot : Scopes.empty.IsRoot := .inl rfl
  have hbody : Request.Balanced Request.scratched :=
    .declare _ _ _ (.declare _ _ _ (.block (.allocate 8 .nil) (.allocate 4 .nil)))
  have hlookup : (Scopes.empty.serve Request.overloaded).2.lookup "f" =
      some ⟨.ofPrimitive .i8, .stack 12⟩ := by decide +kernel
  have hmatching : (Scopes.empty.serve Request.overloaded).2.lookupMatching "f"
      (.ofPrimitive .f64) = some ⟨.ofPrimitive .f64, .stack 4⟩ := by decide +kernel
  have hnext : ((Scopes.empty.serve Request.overloaded).2.allocate 2).1 = 13 := by decide +kernel
  have hagain : (Scopes.empty.serve Request.overloaded).2.declare "f"
      ⟨.ofPrimitive .i8, .stack 0⟩ .start =
        .error (.located .start (.alreadyBound "f" (.ofPrimitive .i8))) := rfl
  have hplaces : Scopes.empty.Addressable Request.overloaded :=
    Scopes.addressable_of_length (by decide)
  have hinside : (Scopes.empty.serve Request.overloaded).2.Addressable
      (Request.block Request.scratched) := Scopes.addressable_of_length (by decide +kernel)
  obtain ⟨answers, state, hserve, hblock, -, -, hstored⟩ :=
    serve_block_restores .empty hroot Request.overloaded
  obtain ⟨arena, harena, hlooks, hlooksMatching, hblockStored, hdeclare⟩ := hstored hplaces
  rw [hserve] at hlookup hmatching hnext hagain hinside
  have hstate := hblock _ hbody
  refine ⟨hroot, hbody, hplaces, state, arena, _, congrArg Prod.snd hserve, hinside,
    congrArg Prod.snd harena, ?_, ?_, ?_, ?_, hblockStored _ hbody hinside, hagain,
    (hdeclare _ _ _ _ hagain).2⟩
  · exact (hlooks _ _).mpr hlookup.symm
  · exact (hlooksMatching _ _ _).mpr hmatching.symm
  · rw [hstate.matching, hmatching]
  · rw [hstate.next, hnext]

end Sluice
