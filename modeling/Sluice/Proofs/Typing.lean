import Mathlib
import Sluice.Proofs.Patterns
import Sluice.Proofs.Steps

namespace Sluice

namespace Ty

def isArray (ty : Ty) : Bool := startsWith .array ty.atoms

-- Properties that every operation of the analysis on types keeps. Looking into a tuple needs a
-- member table whose indices are exact.
structure Kept (P : Ty → Prop) : Prop where
  numeric : ∀ {primitive : Primitive}, primitive.isNumeric = true → P (.ofPrimitive primitive)
  close : ∀ {ty : Ty}, P ty → P ty.close
  array : ∀ {element : Ty} (count : UInt32), P element → P (.array element count)
  append : ∀ {left right whole : Ty}, P left → P right → left.append? right = some whole → P whole
  result : ∀ {ty result : Ty}, P ty → ty.result? = some result → P result
  member : ∀ {ty inner : Ty} {name : String} {row : Member}, P ty → ty.isTuple = true →
    ty.Indexable → ty.member? name = some row → inner? ty.atoms row.index.toNat = some inner →
    P inner
  elements : ∀ {ty : Ty} {elements : List Ty}, P ty → ty.isTuple = true → ty.Indexable →
    ty.elements? = some elements → ∀ element ∈ elements, P element

-- The same for the signs that are no comma, which make no type that is larger than those they take.
-- Brackets name the elements of a tuple anew, and the argument of a piped call has to fit the callee.
structure Carried (P : Ty → Prop) : Prop where
  numeric : ∀ {primitive : Primitive}, primitive.isNumeric = true → P (.ofPrimitive primitive)
  close : ∀ {ty : Ty}, P ty → P ty.close
  brackets : ∀ {ty element : Ty} {count : Nat} {position : Position}, P ty →
    (ty.isTuple = true → ty.Indexable) →
    Analysis.Piece.elementsOf ty position = .ok (element, count) →
    P (.array element (UInt32.ofNat count))
  result : ∀ {ty result : Ty}, P ty → ty.result? = some result → P result
  member : ∀ {ty inner : Ty} {name : String} {row : Member}, P ty → ty.isTuple = true →
    ty.Indexable → ty.member? name = some row → inner? ty.atoms row.index.toNat = some inner →
    P inner
  applied : ∀ {left right whole callee : Ty}, P left → P right → P callee →
    left.append? right = some whole → (func .undecided whole).matches? callee = some true → P whole

-- The member that a name of a tuple stands for.
theorem inner?_of_member? {ty inner : Ty} {elements : List Tree} {name : String} {row : Member}
    (h : ty.Describes (.tuple elements)) (hindexable : ty.Indexable)
    (hrow : ty.member? name = some row) (hinner : inner? ty.atoms row.index.toNat = some inner) :
    ∃ front tree after, elements = front ++ tree :: after ∧
      name = memberName (1 + front.length) ∧ row.offset = UInt32.ofNat (Tree.sizeAll front) ∧
      inner = ofAtoms tree.atoms := by
  obtain ⟨front, tree, after, rfl, hname, rfl⟩ := member?_tuple h hrow
  rw [toNat_index h hindexable, inner?_element h] at hinner
  exact ⟨front, tree, after, rfl, hname, rfl, (Option.some.inj hinner).symm⟩

theorem isFunc_of_result? {ty result : Ty} (h : ty.result? = some result) : ty.isFunc = true := by
  by_contra hfunc
  simp [Ty.result?, hfunc] at h

-- The bytes of a member lie inside of the tuple.
theorem member_inside {ty inner : Ty} {name : String} {row : Member}
    (h : ty.isWellFormed = true) (htuple : ty.isTuple = true) (hindexable : ty.Indexable)
    (hsize : ty.extent < 2147483648) (hrow : ty.member? name = some row)
    (hinner : inner? ty.atoms row.index.toNat = some inner) :
    row.offset.toNat + inner.extent ≤ ty.extent := by
  obtain ⟨tree, htree⟩ := isWellFormed_iff.mp h
  obtain ⟨elements, rfl⟩ := htree.eq_tuple htuple
  obtain ⟨front, element, after, rfl, -, hoffset, rfl⟩ :=
    inner?_of_member? htree hindexable hrow hinner
  rw [htree.extent_eq, Tree.size, Tree.sizeAll_append, Tree.sizeAll] at hsize ⊢
  have hword : (UInt32.ofNat (Tree.sizeAll front)).toNat = Tree.sizeAll front :=
    UInt32.toNat_ofNat_of_lt' (Nat.lt_trans (Nat.lt_of_le_of_lt (Nat.le_add_right ..) hsize)
      (by decide))
  rw [hoffset, hword, (describes_ofAtoms element).extent_eq]
  omega

theorem isDecided_joined {leftOpen : Bool} {tree other : Tree}
    (htree : tree.isDecided = true) (hother : other.isDecided = true) :
    (joined leftOpen tree other).isDecided = true := by
  rw [Tree.isDecided_iff] at htree hother ⊢
  unfold joined
  split
  · simp_all [Tree.atoms, Tree.atomsAll]
  · simp_all [Tree.atoms, Tree.atomsAll]

-- A property of trees that is kept by what the operations do to the trees.
theorem kept_of_trees {Q : Tree → Prop}
    (hnumeric : ∀ {primitive : Primitive}, primitive.isNumeric = true → Q (.prim primitive))
    (harray : ∀ {tree : Tree} (count : UInt32), Q tree → Q (.array tree count))
    (hjoined : ∀ {left right : Tree} (isOpen : Bool), Q left → Q right →
      Q (joined isOpen left right))
    (hresult : ∀ {result argument : Tree}, Q (.func result argument) → Q result)
    (helement : ∀ {elements : List Tree} {tree : Tree}, Q (.tuple elements) → tree ∈ elements →
      Q tree) :
    Kept fun ty => ∃ tree, ty.Describes tree ∧ Q tree := by
  constructor
  case numeric =>
    intro primitive hprimitive
    exact ⟨_, describes_ofPrimitive primitive, hnumeric hprimitive⟩
  case close =>
    rintro ty ⟨tree, htree, hQ⟩
    exact ⟨tree, htree.close, hQ⟩
  case array =>
    rintro element count ⟨tree, htree, hQ⟩
    exact ⟨_, describes_array htree count, harray count hQ⟩
  case append =>
    rintro left right whole ⟨leftTree, hleft, hleftQ⟩ ⟨rightTree, hright, hrightQ⟩ happend
    obtain ⟨found, hfound, hdescribes, -⟩ := append?_describes hleft hright
    cases happend.symm.trans hfound
    exact ⟨_, hdescribes, hjoined _ hleftQ hrightQ⟩
  case result =>
    rintro ty result ⟨tree, htree, hQ⟩ hresult?
    obtain ⟨resultTree, argumentTree, rfl⟩ := htree.eq_func (isFunc_of_result? hresult?)
    cases hresult?.symm.trans htree.result?
    exact ⟨_, describes_ofAtoms resultTree, hresult hQ⟩
  case member =>
    rintro ty inner name row ⟨tree, htree, hQ⟩ htuple hindexable hrow hinner
    obtain ⟨elements, rfl⟩ := htree.eq_tuple htuple
    obtain ⟨front, element, after, rfl, -, -, rfl⟩ :=
      inner?_of_member? htree hindexable hrow hinner
    exact ⟨_, describes_ofAtoms element, helement hQ (by simp)⟩
  case elements =>
    rintro ty elements ⟨tree, htree, hQ⟩ htuple hindexable helements element hmem
    obtain ⟨trees, rfl⟩ := htree.eq_tuple htuple
    cases helements.symm.trans (elements?_tuple htree hindexable)
    obtain ⟨found, hfound, rfl⟩ := List.mem_map.mp hmem
    exact ⟨_, describes_ofAtoms found, helement hQ hfound⟩

theorem kept_isWellFormed : Kept fun ty => ty.isWellFormed = true := by
  have hkept : Kept fun ty => ∃ tree, ty.Describes tree ∧ True := by
    apply kept_of_trees <;> intros <;> trivial
  simpa only [and_true, ← isWellFormed_iff] using hkept

end Ty

-- A property of the types of all bindings.
def Scopes.Typed (P : Ty → Prop) (scopes : Scopes) : Prop :=
  ∀ scope ∈ scopes.chain, ∀ entry ∈ scope.bindings, P entry.2.ty

namespace Scope

theorem mem_of_mem_overloads {scope : Scope} {name : String} {binding : Binding}
    (h : binding ∈ scope.overloads name) : (name, binding) ∈ scope.bindings := by
  simp only [overloads, List.mem_map, List.mem_filter, decide_eq_true_eq] at h
  obtain ⟨⟨found, binding⟩, ⟨hmem, rfl⟩, rfl⟩ := h
  exact hmem

end Scope

namespace Scopes

variable {P : Ty → Prop} {scopes : Scopes} {name : String} {binding : Binding}

theorem mem_of_lookup (h : scopes.lookup name = some binding) :
    ∃ scope ∈ scopes.chain, (name, binding) ∈ scope.bindings := by
  obtain ⟨scope, hscope, hhead⟩ := List.exists_of_findSome?_eq_some h
  exact ⟨scope, hscope, Scope.mem_of_mem_overloads (List.mem_of_mem_head? hhead)⟩

theorem mem_of_lookupMatching {pattern : Ty} (h : scopes.lookupMatching name pattern = some binding) :
    ∃ scope ∈ scopes.chain, (name, binding) ∈ scope.bindings ∧
      pattern.matches? binding.ty = some true := by
  obtain ⟨scope, hscope, hfind⟩ := List.exists_of_findSome?_eq_some h
  exact ⟨scope, hscope, Scope.mem_of_mem_overloads (List.mem_of_find?_eq_some hfind),
    by simpa using List.find?_some hfind⟩

theorem Typed.lookup (hscopes : scopes.Typed P) (h : scopes.lookup name = some binding) :
    P binding.ty := by
  obtain ⟨scope, hscope, hmem⟩ := mem_of_lookup h
  exact hscopes scope hscope _ hmem

theorem Typed.lookupMatching (hscopes : scopes.Typed P) {pattern : Ty}
    (h : scopes.lookupMatching name pattern = some binding) : P binding.ty := by
  obtain ⟨scope, hscope, hmem, -⟩ := mem_of_lookupMatching h
  exact hscopes scope hscope _ hmem

theorem Typed.enter (hscopes : scopes.Typed P) : scopes.enter.Typed P := by
  intro scope hscope
  rcases List.mem_cons.mp hscope with rfl | hscope
  · simp [Scopes.enter]
  · exact hscopes scope hscope

theorem Typed.leave {outer : Scopes} (hscopes : scopes.Typed P) (h : scopes.leave = .ok outer) :
    outer.Typed P := by
  obtain ⟨current, around, frameSize⟩ := scopes
  cases around with
  | nil => contradiction
  | cons scope around =>
      cases h
      intro scope hscope
      exact hscopes scope (List.mem_cons_of_mem _ hscope)

theorem Typed.allocate (hscopes : scopes.Typed P) (size : UInt32) :
    (scopes.allocate size).2.Typed P := by
  intro scope hscope
  rcases List.mem_cons.mp hscope with rfl | hscope
  · exact hscopes scopes.current (List.mem_cons_self ..)
  · exact hscopes scope (List.mem_cons_of_mem _ hscope)

theorem declare_eq_ok {position : Position} {declared : Scopes}
    (h : scopes.declare name binding position = .ok declared) :
    (∀ other ∈ scopes.current.overloads name, other.ty.same binding.ty = false) ∧
      declared = { scopes with current := { scopes.current with
        bindings := scopes.current.bindings ++ [(name, binding)] } } := by
  unfold declare at h
  split at h
  · contradiction
  · rename_i hfind
    cases h
    refine ⟨fun other hother => ?_, rfl⟩
    simpa using List.find?_eq_none.mp hfind other hother

theorem Typed.declare {position : Position} {declared : Scopes} (hscopes : scopes.Typed P)
    (hbinding : P binding.ty) (h : scopes.declare name binding position = .ok declared) :
    declared.Typed P := by
  obtain ⟨-, rfl⟩ := declare_eq_ok h
  intro scope hscope
  rcases List.mem_cons.mp hscope with rfl | hscope
  · intro entry hentry
    rcases List.mem_append.mp hentry with hentry | hentry
    · exact hscopes scopes.current (List.mem_cons_self ..) entry hentry
    · cases List.mem_singleton.mp hentry
      exact hbinding
  · exact hscopes scope (List.mem_cons_of_mem _ hscope)

end Scopes

-- The member tables of all types of an instruction are exact.
def Instruction.Indexable (instruction : Instruction) : Prop :=
  ∀ ty ∈ instruction.result :: instruction.operands, ty.Indexable

instance (instruction : Instruction) : Decidable instruction.Indexable :=
  inferInstanceAs (Decidable (∀ ty ∈ instruction.result :: instruction.operands, ty.Indexable))

namespace Analysis

theorem uniform_indexable : Uniform Instruction.Indexable :=
  ⟨fun _ => Iff.rfl, fun _ _ => by
    simp [Instruction.Indexable, Instruction.placeholder, Ty.undecided, Ty.ofPrimitive, Ty.Indexable]⟩

section Forward

variable {P : Instruction → Prop} {scopes outer : Scopes} {ty : Ty} {segment : Segment}

-- The property holds of every instruction that loads a binding.
def Loads (P : Instruction → Prop) (scopes : Scopes) : Prop :=
  ∀ scope ∈ scopes.chain, ∀ entry ∈ scope.bindings, ∀ position,
    P (Operand.loading entry.2 position).last

theorem Piece.forall_settle (hP : Uniform P) (hloads : Loads P scopes) {piece : Piece}
    (hpiece : ∀ instruction ∈ piece.code, P instruction)
    (h : piece.settle scopes = .ok (ty, segment)) : segment.All P := by
  match piece with
  | .single (.value _ _) =>
      cases h
      exact (hP.code_iff segment 0).mp hpiece
  | .single (.name text position) =>
      simp only [Piece.settle, Operand.settle] at h
      split at h
      · contradiction
      · rename_i binding hlookup
        cases h
        obtain ⟨scope, hscope, hmem⟩ := Scopes.mem_of_lookup hlookup
        exact ⟨by simp [Operand.loading], hloads scope hscope _ hmem position⟩
  | .piped _ _ _ => contradiction

theorem Operand.forall_settleCallee (hloads : Loads P scopes) {callee : Operand} {argument : Ty}
    {position : Position} (hcallee : callee.segment.All P)
    (h : callee.settleCallee scopes argument position = .ok (ty, segment)) : segment.All P := by
  match callee with
  | .value _ _ =>
      obtain ⟨-, rfl, -, -⟩ := Operand.eq_of_settleCallee_value h
      exact hcallee
  | .name text place =>
      simp only [Operand.settleCallee] at h
      split at h
      · contradiction
      · rename_i binding hlookup
        cases h
        obtain ⟨scope, hscope, hmem, -⟩ := Scopes.mem_of_lookupMatching hlookup
        exact ⟨by simp [Operand.loading], hloads scope hscope _ hmem place⟩

-- What holds of the code that a sign takes holds of the code that it leaves, if it holds of what the
-- sign adds: loads of the names, spent names, and its own instruction at the end. Brackets add none.
theorem Makes.forall_made (hP : Uniform P) (hloads : Loads P scopes) {kind : Token.Kind}
    {taken : List Piece} {operand : Operand} (h : Makes scopes kind taken operand outer)
    (htaken : ∀ piece ∈ taken, ∀ instruction ∈ piece.code, P instruction)
    (hspent : ∀ text position ty, ty = .undecided ∨ kind = .assign ∧ ty = operand.segment.last.result →
      P (Piece.spent text position ty))
    (hlast : kind.isBracket = false → P operand.segment.last) :
    operand.segment.All P := by
  have hsettle : ∀ {piece : Piece} {ty : Ty} {segment : Segment}, piece ∈ taken →
      piece.settle scopes = .ok (ty, segment) → segment.All P :=
    fun hmem hsettle => Piece.forall_settle hP hloads (htaken _ hmem) hsettle
  have hcode : ∀ {piece : Piece} {ty : Ty} {segment : Segment} (placement : Int32), piece ∈ taken →
      piece.settle scopes = .ok (ty, segment) → ∀ instruction ∈ segment.code placement,
        P instruction :=
    fun placement hmem h => (hP.code_iff _ placement).mpr (hsettle hmem h)
  have hpiped : ∀ {ty : Ty} {value : Segment} {callee : Operand},
      .piped ty value callee ∈ taken → value.All P ∧ callee.segment.All P := by
    intro ty value callee hmem
    have hcode := htaken _ hmem
    simpa only [Piece.code, Operand.code, List.forall_mem_append, hP.code_iff] using hcode
  cases h with
  | int position hleast hgreatest =>
      exact ⟨by simp [Operand.made, Operand.segment], hlast rfl⟩
  | float bits position =>
      exact ⟨by simp [Operand.made, Operand.segment], hlast rfl⟩
  | assign position hright hsize hdeclare =>
      refine ⟨List.forall_mem_cons.mpr ⟨hspent _ _ _ (.inr ⟨rfl, rfl⟩), ?_⟩,
        hlast rfl⟩
      exact hcode 0 (by simp) hright
  | @arithmetic left right _ _ _ _ _ kind op position hop hleft hright hnumeric hsame =>
      refine ⟨List.forall_mem_append.mpr ⟨hcode 0 (by simp) hleft, hcode 0 (by simp) hright⟩,
        hlast ?_⟩
      cases kind <;> cases hop <;> rfl
  | negate position hsettled hnumeric =>
      exact ⟨hcode 0 (by simp) hsettled, hlast rfl⟩
  | tuple position hleft hright happend =>
      exact ⟨List.forall_mem_append.mpr ⟨hcode 0 (by simp) hleft, hcode 0 (by simp) hright⟩,
        hlast rfl⟩
  | sequence position hleft hright =>
      exact ⟨List.forall_mem_append.mpr ⟨hcode 0 (by simp) hleft, hcode 0 (by simp) hright⟩,
        hlast rfl⟩
  | @call callee argument _ _ _ _ _ position hargument hcallee hresult =>
      have hsingle := (hP.code_iff callee.segment 0).mp (htaken (.single callee) (by simp))
      have hcalleeCode := Operand.forall_settleCallee hloads hsingle hcallee
      exact ⟨List.forall_mem_append.mpr
        ⟨(hP.code_iff _ 0).mpr hcalleeCode, hcode 0 (by simp) hargument⟩,
        hlast rfl⟩
  | @callPiped callee argument _ valueTy _ _ _ value _ _ position hargument happend hcallee
      hresult =>
      obtain ⟨hvalue, hcallees⟩ := @hpiped valueTy value callee (by simp)
      have hcalleeCode := Operand.forall_settleCallee hloads hcallees hcallee
      exact ⟨List.forall_mem_append.mpr ⟨List.forall_mem_append.mpr
        ⟨(hP.code_iff _ gap).mpr hvalue, (hP.code_iff _ _).mpr hcalleeCode⟩,
        hcode 0 (by simp) hargument⟩, hlast rfl⟩
  | @completed callee ty _ _ value _ position hcallee hresult =>
      obtain ⟨hvalue, hcallees⟩ := @hpiped ty value callee (by simp)
      have hcalleeCode := Operand.forall_settleCallee hloads hcallees hcallee
      exact ⟨List.forall_mem_append.mpr
        ⟨(hP.code_iff _ gap).mpr hvalue, (hP.code_iff _ _).mpr hcalleeCode⟩,
        hlast rfl⟩
  | member position hsubject htuple hrow hinner =>
      refine ⟨List.forall_mem_append.mpr ⟨hcode 0 (by simp) hsubject, ?_⟩,
        hlast rfl⟩
      exact List.forall_mem_singleton.mpr (hspent _ _ _ (.inl rfl))
  | group ty segment =>
      exact (hP.code_iff segment 0).mp (htaken (.single (.value ty segment)) (by simp))
  | groupName text position =>
      exact (hP.code_iff _ 0).mp (htaken (.single (.name text position)) (by simp))
  | array hsettled helements => exact hsettle (by simp) hsettled
  | blockEnd hsettled hleave => exact hsettle (by simp) hsettled

-- The same for a step, with what is left to show of the code that a sign makes.
theorem Plan.Step.forall_next (hP : Uniform P) {plan next : Plan} (h : plan.Step next)
    (hloads : Loads P plan.scopes) (hplan : ∀ instruction ∈ plan.code, P instruction)
    (hmade : ∀ {kind : Token.Kind} {taken rest : List Piece} {scopes outer : Scopes}
      {operand : Operand}, plan = ⟨taken ++ rest, scopes⟩ →
      Makes scopes kind taken operand outer → operand.segment.All P) :
    ∀ instruction ∈ next.code, P instruction := by
  cases h with
  | name text position pieces scopes =>
      refine List.forall_mem_append.mpr ⟨hplan, List.forall_mem_singleton.mpr ?_⟩
      exact (hP.placed 0).mpr (hP.placeholder text position)
  | enter pieces scopes => exact hplan
  | @pipe value callee rest scopes ty segment size hvalue hsize =>
      simp only [Plan.code, codeOf, List.forall_mem_append] at hplan
      obtain ⟨⟨hrest, hvalueCode⟩, hcallee⟩ := hplan
      have hsegment := Piece.forall_settle hP hloads hvalueCode hvalue
      simp only [Piece.code, Operand.code, hP.code_iff] at hcallee
      simp only [Plan.code, codeOf, List.forall_mem_append, Piece.code, Operand.code, hP.code_iff]
      exact ⟨hrest, hsegment, hcallee⟩
  | @made kind taken rest scopes outer operand hmakes =>
      intro instruction hmem
      obtain ⟨piece, hpiece, hmem⟩ := mem_codeOf.mp hmem
      rcases List.mem_cons.mp hpiece with rfl | hpiece
      · exact (hP.code_iff operand.segment 0).mpr (hmade rfl hmakes) instruction hmem
      · exact hplan instruction (mem_codeOf.mpr ⟨piece, List.mem_append_right _ hpiece, hmem⟩)

end Forward

-- A type is that of the result of the last instruction, unless brackets have made an array of it.
def Segment.Shows (segment : Segment) (ty : Ty) : Prop :=
  ty.isArray = false → segment.last.result.atoms = ty.atoms

theorem Segment.Shows.tuple {segment : Segment} {ty : Ty} (h : segment.Shows ty)
    (htuple : ty.isTuple = true) : segment.last.result.atoms = ty.atoms := by
  refine h ?_
  simp only [Ty.isTuple, Ty.startsWith, decide_eq_true_eq] at htuple
  simp [Ty.isArray, Ty.startsWith, htuple]

theorem Segment.Shows.indexable {segment : Segment} {ty : Ty} (h : segment.Shows ty)
    (htuple : ty.isTuple = true) (hall : segment.All Instruction.Indexable) : ty.Indexable := by
  have hlast := hall.2 segment.last.result (List.mem_cons_self ..)
  rwa [Ty.Indexable, h.tuple htuple] at hlast

def Operand.Typed (P : Ty → Prop) : Operand → Prop
  | .value ty segment => P ty ∧ segment.Shows ty
  | .name _ _ => True

def Piece.Typed (P : Ty → Prop) : Piece → Prop
  | .single operand => operand.Typed P
  | .piped ty segment callee => (P ty ∧ segment.Shows ty) ∧ callee.Typed P

theorem Piece.Typed.mono {P Q : Ty → Prop} {piece : Piece} (h : piece.Typed P)
    (hPQ : ∀ {ty : Ty}, P ty → Q ty) : piece.Typed Q := by
  match piece with
  | .single (.value _ _) => exact ⟨hPQ h.1, h.2⟩
  | .single (.name _ _) => trivial
  | .piped _ _ (.value _ _) => exact ⟨⟨hPQ h.1.1, h.1.2⟩, hPQ h.2.1, h.2.2⟩
  | .piped _ _ (.name _ _) => exact ⟨⟨hPQ h.1.1, h.1.2⟩, trivial⟩

structure Plan.Typed (P : Ty → Prop) (plan : Plan) : Prop where
  pieces : ∀ piece ∈ plan.pieces, piece.Typed P
  scopes : plan.scopes.Typed P

section Preservation

variable {P : Ty → Prop} {scopes outer : Scopes} {ty : Ty} {segment : Segment}

theorem Operand.typed_made {before : List Instruction} {op : Op} {result : Ty}
    {operands : List Ty} {payload : Payload} {position : Position} (h : P result) :
    (Operand.made before op result operands payload position).Typed P :=
  ⟨h, fun _ => rfl⟩

theorem Piece.Typed.settle {piece : Piece} (hpiece : piece.Typed P) (hscopes : scopes.Typed P)
    (h : piece.settle scopes = .ok (ty, segment)) : P ty ∧ segment.Shows ty := by
  match piece with
  | .single (.value _ _) =>
      cases h
      exact hpiece
  | .single (.name text position) =>
      simp only [Piece.settle, Operand.settle] at h
      split at h
      · contradiction
      · rename_i binding hlookup
        cases h
        exact ⟨hscopes.lookup hlookup, fun _ => rfl⟩
  | .piped _ _ _ => contradiction

theorem Operand.Typed.settleCallee {callee : Operand} {argument : Ty} {position : Position}
    (hcallee : callee.Typed P) (hscopes : scopes.Typed P)
    (h : callee.settleCallee scopes argument position = .ok (ty, segment)) :
    P ty ∧ segment.Shows ty := by
  match callee with
  | .value _ _ =>
      obtain ⟨rfl, rfl, -, -⟩ := Operand.eq_of_settleCallee_value h
      exact hcallee
  | .name text place =>
      simp only [Operand.settleCallee] at h
      split at h
      · contradiction
      · rename_i binding hlookup
        cases h
        exact ⟨hscopes.lookupMatching hlookup, fun _ => rfl⟩

-- Elements of an array: those of an open tuple, or the one value itself.
theorem elementsOf_cases {element : Ty} {count : Nat} {position : Position}
    (h : Piece.elementsOf ty position = .ok (element, count)) :
    (ty.isOpen = true ∧ ∃ rest, ty.elements? = some (element :: rest) ∧ count = rest.length + 1 ∧
      ∀ other ∈ rest, other.same element = true) ∨
    (ty.isOpen = false ∧ element = ty ∧ count = 1) := by
  unfold Piece.elementsOf at h
  split at h
  · rename_i hopen
    obtain ⟨elements, helements, h⟩ := bind_eq_ok.mp h
    match elements with
    | [] => contradiction
    | first :: rest =>
        dsimp only at h
        split at h
        · contradiction
        · rename_i hfind
          cases h
          refine .inl ⟨hopen, rest, inRange_eq_ok.mp helements, rfl, fun other hother => ?_⟩
          obtain ⟨index, hindex⟩ := List.getElem?_of_mem hother
          have hall := List.find?_eq_none.mp hfind (other, index)
            (List.mk_mem_zipIdx_iff_getElem?.mpr hindex)
          simpa using hall
  · rename_i hopen
    cases h
    exact .inr ⟨by simpa [Ty.isOpen] using hopen, rfl, rfl⟩

-- The elements of an array have one tree.
theorem elementsOf_tree {element : Ty} {count : Nat} {position : Position} {tree : Tree}
    (htree : ty.Describes tree) (hindexable : ty.isTuple = true → ty.Indexable)
    (h : Piece.elementsOf ty position = .ok (element, count)) :
    ∃ inner, element.Describes inner ∧
      ((ty.isOpen = true ∧ tree = .tuple (List.replicate count inner)) ∨
        (ty.isOpen = false ∧ tree = inner ∧ count = 1)) := by
  obtain ⟨hopen, rest, hrest, rfl, hsame⟩ | ⟨hopen, rfl, rfl⟩ := elementsOf_cases h
  · have htuple : ty.isTuple = true := (Bool.and_eq_true_iff.mp hopen).1
    obtain ⟨trees, rfl⟩ := htree.eq_tuple htuple
    have hmap := Option.some.inj (hrest.symm.trans (Ty.elements?_tuple htree (hindexable htuple)))
    cases trees with
    | nil => simp at hmap
    | cons inner others =>
        simp only [List.map_cons, List.cons.injEq] at hmap
        obtain ⟨rfl, rfl⟩ := hmap
        have hall : ∀ other ∈ others, other = inner := by
          intro other hother
          have hatoms := hsame _ (List.mem_map_of_mem hother)
          exact ((Ty.describes_ofAtoms other).same_iff (Ty.describes_ofAtoms inner)).mp hatoms
        refine ⟨inner, Ty.describes_ofAtoms inner, .inl ⟨hopen, ?_⟩⟩
        rw [List.length_map, List.replicate_succ, ← List.eq_replicate_of_mem hall]
  · exact ⟨tree, htree, .inr ⟨hopen, rfl, rfl⟩⟩

-- A callee takes the argument that it is settled for.
theorem Operand.matches_of_settleCallee {callee : Operand} {argument : Ty} {position : Position}
    (h : callee.settleCallee scopes argument position = .ok (ty, segment)) :
    (Ty.func .undecided argument).matches? ty = some true := by
  match callee with
  | .value _ _ =>
      obtain ⟨rfl, -, -, hmatches⟩ := Operand.eq_of_settleCallee_value h
      exact hmatches
  | .name text place =>
      simp only [Operand.settleCallee] at h
      split at h
      · contradiction
      · rename_i binding hlookup
        cases h
        obtain ⟨-, -, -, hmatches⟩ := Scopes.mem_of_lookupMatching hlookup
        exact hmatches

theorem carried_of_kept (hP : Ty.Kept P) : Ty.Carried P := by
  refine ⟨hP.numeric, hP.close, ?_, hP.result, hP.member, ?_⟩
  · intro ty element count position hty hindexable helements
    refine hP.array _ ?_
    obtain ⟨hopen, rest, hrest, -⟩ | ⟨-, rfl, -⟩ := elementsOf_cases helements
    · have htuple : ty.isTuple = true := (Bool.and_eq_true_iff.mp hopen).1
      exact hP.elements hty htuple (hindexable htuple) hrest element (by simp)
    · exact hty
  · intro left right whole callee hleft hright _ happend _
    exact hP.append hleft hright happend

-- The types that a sign makes, and the types of the bindings behind it.
theorem Makes.carried (hP : Ty.Carried P) {kind : Token.Kind} {taken : List Piece}
    {operand : Operand} (h : Makes scopes kind taken operand outer)
    (hall : operand.segment.All Instruction.Indexable)
    (hcomma : kind = .comma → P operand.segment.last.result)
    (htaken : ∀ piece ∈ taken, piece.Typed P) (hscopes : scopes.Typed P) :
    operand.Typed P ∧ outer.Typed P := by
  cases h with
  | int position hleast hgreatest => exact ⟨Operand.typed_made (hP.numeric rfl), hscopes⟩
  | float bits position => exact ⟨Operand.typed_made (hP.numeric rfl), hscopes⟩
  | @assign right ty segment name place size declared position hright hsize hdeclare =>
      have hty := hP.close ((htaken _ (List.mem_cons_self ..)).settle hscopes hright).1
      exact ⟨Operand.typed_made hty, (hscopes.allocate size).declare hty hdeclare⟩
  | arithmetic op position hop hleft hright hnumeric hsame =>
      exact ⟨Operand.typed_made (hP.numeric (Ty.numeric?_eq_some hnumeric).2), hscopes⟩
  | negate position hsettle hnumeric =>
      have hty := ((htaken _ (List.mem_cons_self ..)).settle hscopes hsettle).1
      exact ⟨Operand.typed_made hty, hscopes⟩
  | tuple position hleft hright happend => exact ⟨Operand.typed_made (hcomma rfl), hscopes⟩
  | @sequence left right leftTy rightTy leftSegment rightSegment position hleft hright =>
      have hrightTy := ((htaken right (by simp)).settle hscopes hright).1
      exact ⟨Operand.typed_made hrightTy, hscopes⟩
  | @call callee argument ty calleeTy result segment calleeSegment position hargument hcallee
      hresult =>
      have hcalleeTyped : callee.Typed P := htaken (.single callee) (by simp)
      have hcalleeTy := (hcalleeTyped.settleCallee hscopes hcallee).1
      exact ⟨Operand.typed_made (hP.result hcalleeTy hresult), hscopes⟩
  | @callPiped callee argument ty valueTy whole calleeTy result value segment calleeSegment position
      hargument happend hcallee hresult =>
      have hpiped : (Piece.piped valueTy value callee).Typed P := htaken _ (by simp)
      have hcalleeTy := (hpiped.2.settleCallee hscopes hcallee).1
      exact ⟨Operand.typed_made (hP.result hcalleeTy hresult), hscopes⟩
  | @completed callee ty calleeTy result value calleeSegment position hcallee hresult =>
      have hpiped : (Piece.piped ty value callee).Typed P := htaken _ (by simp)
      have hcalleeTy := (hpiped.2.settleCallee hscopes hcallee).1
      exact ⟨Operand.typed_made (hP.result hcalleeTy hresult), hscopes⟩
  | @member subject ty inner segment name place row position hsubject htuple hrow hinner =>
      obtain ⟨hty, hshows⟩ := (htaken subject (by simp)).settle hscopes hsubject
      have hinit := hall.1
      simp only [Operand.made, Operand.segment, List.forall_mem_append,
        uniform_indexable.code_iff] at hinit
      have hindexable := hshows.indexable htuple hinit.1
      exact ⟨Operand.typed_made (hP.member hty htuple hindexable hrow hinner), hscopes⟩
  | group ty segment =>
      have hvalue : (Operand.value ty segment).Typed P := htaken _ (List.mem_cons_self ..)
      exact ⟨⟨hP.close hvalue.1, hvalue.2⟩, hscopes⟩
  | groupName text position => exact ⟨trivial, hscopes⟩
  | @array piece ty element segment count position hsettle helements =>
      obtain ⟨hty, hshows⟩ := (htaken piece (by simp)).settle hscopes hsettle
      have harray := hP.brackets hty (fun htuple => hshows.indexable htuple hall) helements
      refine ⟨⟨harray, fun hother => ?_⟩, hscopes⟩
      simp [Ty.array, Ty.ofAtoms, Ty.isArray, Ty.startsWith] at hother
  | @blockEnd piece ty segment outer hsettle hleave =>
      obtain ⟨hty, hshows⟩ := (htaken piece (by simp)).settle hscopes hsettle
      exact ⟨⟨hP.close hty, hshows⟩, hscopes.leave hleave⟩

theorem Makes.typed (hP : Ty.Kept P) {kind : Token.Kind} {taken : List Piece} {operand : Operand}
    (h : Makes scopes kind taken operand outer) (hall : operand.segment.All Instruction.Indexable)
    (htaken : ∀ piece ∈ taken, piece.Typed P) (hscopes : scopes.Typed P) :
    operand.Typed P ∧ outer.Typed P := by
  refine h.carried (carried_of_kept hP) hall ?_ htaken hscopes
  rintro rfl
  cases h with
  | arithmetic op position hop hleft hright hnumeric hsame => contradiction
  | @tuple left right leftTy rightTy whole leftSegment rightSegment position hleft hright happend =>
      have hleftTy := ((htaken left (by simp)).settle hscopes hleft).1
      have hrightTy := ((htaken right (by simp)).settle hscopes hright).1
      exact hP.append hleftTy hrightTy happend

theorem Plan.Typed.step (hP : Ty.Kept P) {plan next : Plan} (h : plan.Step next)
    (hall : ∀ instruction ∈ next.code, instruction.Indexable) (hplan : plan.Typed P) :
    next.Typed P := by
  cases h with
  | name text position pieces scopes =>
      exact ⟨List.forall_mem_cons.mpr ⟨trivial, hplan.pieces⟩, hplan.scopes⟩
  | enter pieces scopes => exact ⟨hplan.pieces, hplan.scopes.enter⟩
  | @pipe value callee rest scopes ty segment size hvalue hsize =>
      have hpieces := hplan.pieces
      simp only [List.forall_mem_cons] at hpieces
      refine ⟨List.forall_mem_cons.mpr ⟨⟨?_, hpieces.1⟩, hpieces.2.2⟩, hplan.scopes⟩
      exact hpieces.2.1.settle hplan.scopes hvalue
  | @made kind taken rest scopes outer operand hmakes =>
      obtain ⟨htaken, hrest⟩ := List.forall_mem_append.mp hplan.pieces
      simp only [Plan.code, codeOf, List.forall_mem_append, Piece.code, Operand.code,
        uniform_indexable.code_iff] at hall
      obtain ⟨hoperand, houter⟩ := hmakes.typed hP hall.2 htaken hplan.scopes
      exact ⟨List.forall_mem_cons.mpr ⟨hoperand, hrest⟩, houter⟩

end Preservation

end Analysis

end Sluice
