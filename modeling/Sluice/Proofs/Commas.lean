import Mathlib
import Sluice.Proofs.Registration
import Sluice.Proofs.Subexpressions

namespace Sluice

namespace Ty

-- A tuple to which a comma may add: its elements between two atoms, the first one in front.
structure Grows (ty : Ty) (inner : List Atom) : Prop where
  atoms : ty.atoms = .tuple :: (inner ++ [.close])
  empty : ty.members = [] → inner = []
  first : ∀ row ∈ ty.members.head?, row.index = 1

theorem isOpen_of_isClosed {ty : Ty} (h : ty.isClosed = true) : ty.isOpen = false := by
  simp [isOpen, h]

theorem isOpen_of_not_isTuple {ty : Ty} (h : ty.isTuple = false) : ty.isOpen = false := by
  simp [isOpen, h]

theorem Describes.grows {ty : Ty} {elements : List Tree} (h : ty.Describes (.tuple elements)) :
    ty.Grows (Tree.atomsAll elements) := by
  refine ⟨h.atoms, ?_, ?_⟩
  · intro hmembers
    have hlength := Tree.length_rows 1 1 0 elements
    rw [h.members, Tree.members] at hmembers
    rw [hmembers] at hlength
    rw [List.eq_nil_of_length_eq_zero hlength.symm, Tree.atomsAll]
  · intro row hrow
    rw [h.members, Tree.members] at hrow
    cases elements with
    | nil => contradiction
    | cons tree rest =>
        cases hrow
        rfl

theorem isClosed_result? {ty result : Ty} (h : ty.result? = some result) :
    result.isClosed = true := by
  rw [result?, if_pos (isFunc_of_result? h)] at h
  exact isClosed_inner? h

theorem exists_grows {ty : Ty} (h : ty.isWellFormed = true) (hopen : ty.isOpen = true) :
    ∃ inner, ty.Grows inner := by
  obtain ⟨tree, htree⟩ := isWellFormed_iff.mp h
  obtain ⟨elements, rfl⟩ := htree.eq_tuple (Bool.and_eq_true_iff.mp hopen).1
  exact ⟨_, htree.grows⟩

section Append

variable {left right whole : Ty}

theorem append?_of_isOpen (hopen : left.isOpen = true) {inner : List Atom}
    (hleft : left.Grows inner) (h : left.append? right = some whole) :
    whole.isOpen = true ∧ whole.Grows (inner ++ right.atoms) := by
  obtain ⟨size, -, rfl⟩ := Option.map_eq_some_iff.mp h
  have hopen' : (left.isTuple && !left.isClosed) = true := hopen
  have hdrop : left.atoms.dropLast = .tuple :: inner := by
    rw [hleft.atoms, ← List.cons_append, List.dropLast_concat]
  simp only [hopen', if_true, hdrop]
  refine ⟨rfl, ⟨by simp, by simp, ?_⟩⟩
  intro row hrow
  cases hmembers : left.members with
  | nil =>
      rw [hmembers] at hrow
      cases hrow
      simp [hleft.empty hmembers]
  | cons found rest =>
      rw [hmembers] at hrow
      exact hleft.first row (by rw [hmembers]; exact hrow)

theorem append?_of_not_isOpen (hopen : left.isOpen = false) (h : left.append? right = some whole) :
    whole.isOpen = true ∧ whole.Grows (left.atoms ++ right.atoms) := by
  obtain ⟨size, -, rfl⟩ := Option.map_eq_some_iff.mp h
  have hopen' : (left.isTuple && !left.isClosed) = false := hopen
  simp only [hopen', Bool.false_eq_true, if_false]
  refine ⟨rfl, ⟨by simp, by simp, ?_⟩⟩
  intro row hrow
  cases hrow
  rfl

private theorem atoms_pair (left right : Ty) :
    (tuple [left, right]).atoms = .tuple :: (left.atoms ++ right.atoms ++ [.close]) := by
  simp [tuple, ofAtoms]

-- Adding to a tuple makes it longer by the new element, a pair is longer by two atoms more.
theorem append?_same_pair_iff (hgrows : left.isOpen = true → ∃ inner, left.Grows inner)
    (h : left.append? right = some whole) :
    whole.same (.tuple [left, right]) = true ↔ left.isOpen = false := by
  rw [same, decide_eq_true_eq, atoms_pair]
  cases hopen : left.isOpen with
  | false => simp [(append?_of_not_isOpen hopen h).2.atoms]
  | true =>
      obtain ⟨inner, hinner⟩ := hgrows hopen
      rw [(append?_of_isOpen hopen hinner h).2.atoms, hinner.atoms]
      simp only [reduceCtorEq, iff_false]
      intro heq
      have hlength := congrArg List.length heq
      simp only [List.length_cons, List.length_append, List.length_nil] at hlength
      omega

end Append

theorem atoms_array (element : Ty) (count : UInt32) :
    (array element count).atoms = .array :: (element.atoms ++ [.count count]) := rfl

private theorem length_inner? {atoms : List Atom} {index : Nat} {inner : Ty}
    (h : inner? atoms index = some inner) : inner.atoms.length ≤ atoms.length - index := by
  obtain ⟨⟨found, behind⟩, hread, rfl⟩ := Option.map_eq_some_iff.mp h
  have hlength := congrArg List.length (Skeleton.atoms_of_read? hread)
  rw [List.length_drop, List.length_append] at hlength
  change found.atoms.length ≤ _
  omega

-- The first element of a tuple is shorter than the tuple.
private theorem Grows.length_first {ty first : Ty} {inner : List Atom} {rest : List Ty}
    (h : ty.Grows inner) (helements : ty.elements? = some (first :: rest)) :
    first.atoms.length < ty.atoms.length := by
  rw [elements?] at helements
  cases hmembers : ty.members with
  | nil => simp [hmembers] at helements
  | cons row rows =>
      rw [hmembers, List.mapM_cons] at helements
      obtain ⟨found, hfound, helements⟩ := Option.bind_eq_some_iff.mp helements
      obtain ⟨others, -, helements⟩ := Option.bind_eq_some_iff.mp helements
      cases helements
      have hindex : row.index = 1 := h.first row (by rw [hmembers]; rfl)
      rw [hindex] at hfound
      have hlength := length_inner? hfound
      have hone : (1 : UInt64).toNat = 1 := rfl
      rw [h.atoms, List.length_cons] at hlength ⊢
      omega

theorem elementsOf_same_array_iff {ty element : Ty} {count : Nat} {position : Position}
    (hgrows : ty.isOpen = true → ∃ inner, ty.Grows inner)
    (h : Analysis.Piece.elementsOf ty position = .ok (element, count)) :
    (array element (UInt32.ofNat count)).same (.array ty 1) = true ↔ ty.isOpen = false := by
  rw [same, decide_eq_true_eq, atoms_array, atoms_array]
  unfold Analysis.Piece.elementsOf at h
  cases hopen : ty.isOpen with
  | false =>
      have hopen' : (ty.isTuple && !ty.isClosed) = false := hopen
      rw [hopen'] at h
      cases h
      simp
  | true =>
      obtain ⟨inner, hinner⟩ := hgrows hopen
      have hopen' : (ty.isTuple && !ty.isClosed) = true := hopen
      rw [hopen', if_pos rfl] at h
      obtain ⟨elements, helements, h⟩ := bind_eq_ok.mp h
      cases elements with
      | nil => contradiction
      | cons first rest =>
          have hshorter := hinner.length_first (inRange_eq_ok.mp helements)
          have helement : element = first := by
            dsimp only at h
            split at h
            · contradiction
            · cases h
              rfl
          simp only [reduceCtorEq, iff_false]
          intro heq
          have hlength := congrArg List.length heq
          rw [helement] at hlength
          simp only [List.length_cons, List.length_append, List.length_nil] at hlength
          omega

end Ty

-- All bindings of all open scopes.
def Scopes.entries (scopes : Scopes) : List (String × Binding) :=
  scopes.chain.flatMap Scope.bindings

theorem Scopes.mem_entries_of_lookup {scopes : Scopes} {name : String} {binding : Binding}
    (h : scopes.lookup name = some binding) : (name, binding) ∈ scopes.entries := by
  obtain ⟨scope, hscope, hmem⟩ := mem_of_lookup h
  exact List.mem_flatMap.mpr ⟨scope, hscope, hmem⟩

namespace Analysis

section Entries

variable {scopes outer : Scopes} {entry : String × Binding}

-- Only an assignment binds, and what it binds is closed.
theorem Makes.entries {kind : Token.Kind} {taken : List Piece} {operand : Operand}
    (h : Makes scopes kind taken operand outer) (hentry : entry ∈ outer.entries) :
    entry ∈ scopes.entries ∨ entry.2.ty.isClosed = true := by
  cases h with
  | assign position hright hsize hdeclare =>
      obtain ⟨-, rfl⟩ := Scopes.declare_eq_ok hdeclare
      simp only [Scopes.entries, Scopes.chain, List.flatMap_cons, List.mem_append,
        List.mem_singleton] at hentry
      rcases hentry with (hentry | rfl) | hentry
      · exact .inl (List.mem_append_left _ hentry)
      · exact .inr rfl
      · exact .inl (List.mem_append_right _ hentry)
  | blockEnd hsettle hleave =>
      obtain ⟨current, around, frameSize⟩ := scopes
      cases around with
      | nil => contradiction
      | cons scope around =>
          cases hleave
          exact .inl (List.mem_append_right _ hentry)
  | _ => exact .inl hentry

theorem Plan.Step.entries {plan next : Plan} (h : plan.Step next)
    (hentry : entry ∈ next.scopes.entries) :
    entry ∈ plan.scopes.entries ∨ entry.2.ty.isClosed = true := by
  cases h with
  | name text position pieces scopes => exact .inl hentry
  | enter pieces scopes =>
      exact .inl (by simpa [Scopes.entries, Scopes.enter, Scopes.chain] using hentry)
  | pipe hvalue hsize => exact .inl hentry
  | made hmakes => exact hmakes.entries hentry

theorem Plan.entries_steps {tokens : List Token} {plan next : Plan}
    (h : plan.steps tokens = .ok next) (hentry : entry ∈ next.scopes.entries) :
    entry ∈ plan.scopes.entries ∨ entry.2.ty.isClosed = true := by
  induction tokens generalizing plan with
  | nil =>
      cases h
      exact .inl hentry
  | cons token rest ih =>
      rw [Plan.steps_cons] at h
      obtain ⟨middle, hstep, h⟩ := bind_eq_ok.mp h
      rcases ih h with hmiddle | hclosed
      · exact (Plan.Step.of_step hstep).entries hmiddle
      · exact .inr hclosed

end Entries

-- Every sign but a comma and a semicolon closes what it makes. Round brackets leave a name alone.
theorem Makes.isOpen_eq_false {scopes outer later : Scopes} {kind : Token.Kind}
    {taken : List Piece} {operand : Operand} {ty : Ty} {segment : Segment}
    (h : Makes scopes kind taken operand outer) (hkind : kind ∉ [.comma, .sequence, .group])
    (hsettle : operand.settle later = .ok (ty, segment)) : ty.isOpen = false := by
  cases h with
  | int position hleast hgreatest =>
      cases hsettle
      rfl
  | float bits position =>
      cases hsettle
      rfl
  | assign position hright hsize hdeclare =>
      cases hsettle
      exact Ty.isOpen_of_isClosed rfl
  | arithmetic op position hop hleft hright hnumeric hsame =>
      cases hsettle
      rfl
  | negate position hvalue hnumeric =>
      cases hsettle
      obtain ⟨primitive, hprimitive⟩ := Option.isSome_iff_exists.mp hnumeric
      refine Ty.isOpen_of_not_isTuple ?_
      rw [Ty.isTuple, (Ty.numeric?_eq_some hprimitive).1]
      rfl
  | tuple => exact absurd (by decide) hkind
  | sequence => exact absurd (by decide) hkind
  | call position hargument hcallee hresult =>
      cases hsettle
      exact Ty.isOpen_of_isClosed (Ty.isClosed_result? hresult)
  | callPiped position hargument happend hcallee hresult =>
      cases hsettle
      exact Ty.isOpen_of_isClosed (Ty.isClosed_result? hresult)
  | completed position hcallee hresult =>
      cases hsettle
      exact Ty.isOpen_of_isClosed (Ty.isClosed_result? hresult)
  | member position hsubject htuple hrow hinner =>
      cases hsettle
      exact Ty.isOpen_of_isClosed (Ty.isClosed_inner? hinner)
  | group => exact absurd (by decide) hkind
  | groupName => exact absurd (by decide) hkind
  | array hvalue helements =>
      cases hsettle
      rfl
  | blockEnd hvalue hleave =>
      cases hsettle
      exact Ty.isOpen_of_isClosed rfl

end Analysis

namespace Expr

-- A list of commas, without brackets around it.
def isList : Expr → Bool
  | .binary .comma _ _ _ => true
  | _ => false

-- What stands behind the last semicolon.
def ending : Expr → Expr
  | .binary .sequence _ right _ => right.ending
  | expr => expr

theorem isList_of_bare? {expr : Expr} {found : String × Position} (h : expr.bare? = some found) :
    expr.isList = false := by
  cases expr with
  | name text position => rfl
  | bracketed bracket inner opened closed => rfl
  | _ => contradiction

private theorem ending_eq_self {expr : Expr}
    (h : ∀ first second place, expr ≠ .binary .sequence first second place) :
    expr.ending = expr := by
  cases expr with
  | binary operator left right position =>
      cases operator with
      | sequence => exact absurd rfl (h left right position)
      | _ => rfl
  | _ => rfl

end Expr

-- No semicolon stands on the left of a comma, so what is behind the last one is all of it.
theorem Source.ending_left_of_comma {source : Bytes} {parsed left right : Expr} {last : Position}
    {front : List Token} {position : Position} (h : expr source = .ok (parsed, last))
    (hat : parsed.At front (.binary .comma left right position)) : left.ending = left := by
  obtain ⟨lexemes, -, h⟩ := bind_eq_ok.mp h
  obtain ⟨found, hparse, h⟩ := bind_eq_ok.mp h
  cases h
  obtain ⟨tree, -, hprescribed, rfl⟩ := Arrangement.exists_of_parse hparse
  obtain ⟨inner, hinner, hexpr⟩ := Arrangement.exists_of_at hprescribed hat
  exact Expr.ending_eq_self (Arrangement.left_of_comma hinner hexpr)

namespace Library

-- A name that stands for a constant, and the type of the constant is open.
def Opens (library : Library) (expr : Expr) (ty : Ty) : Prop :=
  ∃ text place, expr.bare? = some (text, place) ∧
    ∃ constant ∈ library.constants, constant.name = text ∧ constant.ty = ty ∧ ty.isOpen = true

-- Whether the type is open can be read off the expression.
structure Tells (library : Library) (expr : Expr) (ty : Ty) : Prop where
  isOpen_iff : ty.isOpen = true ↔ expr.isList = true ∨ library.Opens expr ty
  grows : ty.isOpen = true → ∃ inner, ty.Grows inner

-- Only constants of the library are bound with open types.
def Binds (library : Library) (scopes : Scopes) : Prop :=
  ∀ entry ∈ scopes.entries, entry.2.ty.isOpen = true →
    ∃ constant ∈ library.constants, constant.name = entry.1 ∧ constant.ty = entry.2.ty

variable {library : Library} {expr : Expr} {ty : Ty}

theorem Opens.isOpen (h : library.Opens expr ty) : ty.isOpen = true := by
  obtain ⟨-, -, -, -, -, -, -, hopen⟩ := h
  exact hopen

-- Without a list of commas only the constants are left to look for.
theorem tells_of_not_isList (hlist : expr.isList = false)
    (hopens : ty.isOpen = true → library.Opens expr ty)
    (hgrows : ty.isOpen = true → ∃ inner, ty.Grows inner) : library.Tells expr ty := by
  refine ⟨⟨fun hopen => .inr (hopens hopen), ?_⟩, hgrows⟩
  rintro (hisList | hisOpen)
  · simp [hlist] at hisList
  · exact hisOpen.isOpen

theorem tells_of_not_isOpen (hlist : expr.isList = false) (h : ty.isOpen = false) :
    library.Tells expr ty := by
  have hnot : ¬ ty.isOpen = true := by simp [h]
  exact tells_of_not_isList hlist (fun hopen => absurd hopen hnot)
    (fun hopen => absurd hopen hnot)

theorem tells_of_makes {scopes outer later : Scopes} {kind : Token.Kind}
    {taken : List Analysis.Piece} {operand : Analysis.Operand} {segment : Analysis.Segment}
    (hlist : expr.isList = false) (h : Analysis.Makes scopes kind taken operand outer)
    (hkind : kind ∉ [.comma, .sequence, .group])
    (hsettle : operand.settle later = .ok (ty, segment)) : library.Tells expr ty :=
  tells_of_not_isOpen hlist (h.isOpen_eq_false hkind hsettle)

theorem Binds.steps {tokens : List Token} {plan next : Analysis.Plan}
    (hplan : library.Binds plan.scopes) (h : plan.steps tokens = .ok next) :
    library.Binds next.scopes := by
  intro entry hentry hopen
  rcases Analysis.Plan.entries_steps h hentry with hbefore | hclosed
  · exact hplan entry hbefore hopen
  · rw [Ty.isOpen_of_isClosed hclosed] at hopen
    contradiction

theorem Binds.build {scopes outer : Scopes} {operand : Analysis.Operand}
    (hscopes : library.Binds scopes) (h : expr.build scopes = .ok (operand, outer)) :
    library.Binds outer := by
  have hplan : library.Binds (Analysis.Plan.mk [] scopes).scopes := hscopes
  exact hplan.steps (Expr.steps_of_build h [])

end Library

namespace Expr

open Analysis

section Openness

variable {library : Library}

theorem tells_of_bare? {expr : Expr} {text : String} {place : Position} {scopes : Scopes} {ty : Ty}
    {segment : Segment}
    (hconstants : ∀ constant ∈ library.constants, constant.ty.isWellFormed = true)
    (hscopes : library.Binds scopes) (hbare : expr.bare? = some (text, place))
    (hsettle : (Operand.name text place).settle scopes = .ok (ty, segment)) :
    library.Tells expr ty := by
  simp only [Operand.settle] at hsettle
  split at hsettle
  · contradiction
  · rename_i binding hlookup
    cases hsettle
    have hfound := hscopes _ (Scopes.mem_entries_of_lookup hlookup)
    refine Library.tells_of_not_isList (isList_of_bare? hbare) (fun hopen => ?_) (fun hopen => ?_)
    · obtain ⟨constant, hmem, hname, hty⟩ := hfound hopen
      exact ⟨text, place, hbare, constant, hmem, hname, hty, hopen⟩
    · obtain ⟨constant, hmem, -, hty⟩ := hfound hopen
      exact Ty.exists_grows (hty ▸ hconstants constant hmem) hopen

-- The induction follows the semicolons; everything else is closed, a list or a name.
theorem tells_of_build {expr : Expr} {scopes outer later : Scopes} {operand : Operand} {ty : Ty}
    {segment : Segment}
    (hconstants : ∀ constant ∈ library.constants, constant.ty.isWellFormed = true)
    (hscopes : library.Binds scopes) (h : expr.build scopes = .ok (operand, outer))
    (hlater : library.Binds later) (hsettle : operand.settle later = .ok (ty, segment)) :
    library.Tells expr.ending ty := by
  induction expr generalizing scopes outer later operand ty segment with
  | number text position =>
      exact Library.tells_of_makes rfl (Makes.of_number h) (by decide) hsettle
  | name text position =>
      cases h
      exact tells_of_bare? hconstants hlater rfl hsettle
  | negate inner position ih =>
      obtain ⟨value, middle, -, h⟩ := build_negate h
      exact Library.tells_of_makes rfl (Makes.of_negate h) (by decide) hsettle
  | binary operator left right position ihleft ihright =>
      obtain ⟨first, middle, second, built, hleft, hright, h⟩ := build_binary h
      have hmiddle := hscopes.build hleft
      have hbuilt := hmiddle.build hright
      have hmakes := makes_of_sign h
      cases operator with
      | sequence =>
          cases hmakes with
          | arithmetic op place hop => contradiction
          | sequence place hfirst hsecond =>
              cases hsettle
              exact ihright hmiddle hright hbuilt hsecond
      | comma =>
          cases hmakes with
          | arithmetic op place hop => contradiction
          | @tuple _ _ leftTy rightTy whole _ _ place hfirst hsecond happend =>
              cases hsettle
              have hgrown : ty.isOpen = true ∧ ∃ inner, ty.Grows inner := by
                cases hopen : leftTy.isOpen with
                | false =>
                    obtain ⟨hwhole, hinner⟩ := Ty.append?_of_not_isOpen hopen happend
                    exact ⟨hwhole, _, hinner⟩
                | true =>
                    obtain ⟨inner, hinner⟩ := (ihleft hscopes hleft hbuilt hfirst).grows hopen
                    obtain ⟨hwhole, hinner⟩ := Ty.append?_of_isOpen hopen hinner happend
                    exact ⟨hwhole, _, hinner⟩
              exact ⟨⟨fun _ => .inl rfl, fun _ => hgrown.1⟩, fun _ => hgrown.2⟩
      | _ =>
          exact Library.tells_of_makes rfl hmakes (by decide) hsettle
  | pipe value callee position ihvalue ihcallee =>
      obtain ⟨first, middle, second, built, piped, -, -, -, h⟩ := build_pipe h
      exact Library.tells_of_makes rfl (Makes.of_completed h) (by decide) hsettle
  | pipeWith value callee argument position ihvalue ihcallee ihargument =>
      obtain ⟨first, middle, second, behind, piped, third, built, -, -, -, -, h⟩ := build_pipeWith h
      exact Library.tells_of_makes rfl (Makes.of_applied h) (by decide) hsettle
  | member subject field position ih =>
      obtain ⟨value, middle, -, h⟩ := build_member h
      exact Library.tells_of_makes rfl (Makes.of_member h) (by decide) hsettle
  | bracketed bracket inner opened closed ih =>
      cases bracket with
      | round =>
          cases operand with
          | name text place =>
              exact tells_of_bare? hconstants hlater (bare?_of_build h) hsettle
          | value valueTy code =>
              obtain ⟨value, middle, -, h⟩ := build_round h
              cases Makes.of_group h
              cases hsettle
              exact Library.tells_of_not_isOpen rfl (Ty.isOpen_of_isClosed rfl)
      | square =>
          obtain ⟨value, middle, -, h⟩ := build_square h
          exact Library.tells_of_makes rfl (Makes.of_array h) (by decide) hsettle
      | curly =>
          obtain ⟨value, middle, -, h⟩ := build_curly h
          exact Library.tells_of_makes rfl (Makes.of_blockEnd h) (by decide) hsettle

end Openness

end Expr

namespace Library

-- Natives are functions, and the types of constants are written as they should be.
structure Tidy (library : Library) : Prop where
  native : ∀ native ∈ library.natives, native.ty.isFunc = true
  constant : ∀ constant ∈ library.constants, constant.ty.isWellFormed = true

variable {library : Library}

theorem Tidy.binds {root : Scopes} {literals : Pool} (hlibrary : library.Tidy)
    (h : Scopes.ofLibrary library = .ok (root, literals)) : library.Binds root := by
  obtain ⟨rows, rfl, hrows⟩ := Scopes.ofLibrary_eq_ok h
  intro entry hentry hopen
  simp only [Scopes.entries, Scopes.chain, List.flatMap_cons, List.flatMap_nil, List.append_nil,
    List.mem_append, List.mem_map] at hentry
  rcases hentry with ⟨⟨id, native⟩, hmem, rfl⟩ | hentry
  · obtain ⟨⟨found, index⟩, hfound, heq⟩ := List.mem_map.mp hmem
    cases heq
    have hfunc := hlibrary.native found (List.fst_mem_of_mem_zipIdx hfound)
    have htuple := (Bool.and_eq_true_iff.mp hopen).1
    simp only [Ty.isFunc, Ty.startsWith, decide_eq_true_eq] at hfunc
    simp only [Scopes.nativeRow, Ty.isTuple, Ty.startsWith, hfunc] at htuple
    contradiction
  · obtain ⟨constant, hmem, hlies⟩ := exists_of_mem_left hrows.flip hentry
    exact ⟨constant, hmem, hlies.name.symm, hlies.ty.symm⟩

theorem tidy_of_registerAll {base : Library} {registrations : List Registration}
    (hbase : base = .empty ∨ base = .standard)
    (h : base.registerAll registrations = .ok library)
    (htypes : ∀ name ty bytes, .constant name ty bytes ∈ registrations →
      ty.isWellFormed = true) : library.Tidy := by
  have hstart : base.Tidy := by
    rcases hbase with rfl | rfl
    · exact ⟨by simp [Library.empty], by simp [Library.empty]⟩
    · exact ⟨Registered.standard.isFunc,
        fun constant hmem => (checked_standard.constant constant hmem).wellFormed⟩
  refine foldlM_keeps (fun registration hmem state next hstate hstep => ?_) hstart h
  cases registration with
  | native name result argument compute =>
      obtain ⟨⟨id, found⟩, hregister, rfl⟩ := map_eq_ok.mp hstep
      obtain ⟨-, rfl⟩ := registerNative_eq_ok hregister
      exact ⟨List.forall_mem_append.mpr ⟨hstate.native, List.forall_mem_singleton.mpr rfl⟩,
        hstate.constant⟩
  | constant name ty bytes =>
      obtain ⟨-, -, rfl⟩ := registerConstant_eq_ok hstep
      exact ⟨hstate.native, List.forall_mem_append.mpr
        ⟨hstate.constant, List.forall_mem_singleton.mpr (htypes name ty bytes hmem)⟩⟩

end Library

namespace Analysis

variable {root : Scopes} {front : List Token} {plan : Plan}

-- Behind an expression its value is the topmost one.
theorem steps_front_build (hfront : Plan.steps front ⟨[], root⟩ = .ok plan) {expr : Expr}
    {operand : Operand} {outer : Scopes} (h : expr.build plan.scopes = .ok (operand, outer)) :
    Plan.steps (front ++ expr.postfixTokens) ⟨[], root⟩ =
      .ok ⟨.single operand :: plan.pieces, outer⟩ := by
  rw [Plan.steps_append, hfront, ok_bind]
  exact Expr.steps_of_build h plan.pieces

theorem ends_append {first second : List Token} (hfirst : ∀ token ∈ first, Plan.ends token = false)
    (hsecond : ∀ token ∈ second, Plan.ends token = false) :
    ∀ token ∈ first ++ second, Plan.ends token = false :=
  List.forall_mem_append.mpr ⟨hfirst, hsecond⟩

-- The types at a comma: of both sides in front of it, and of the outcome behind it.
private theorem pendingTypes_comma (hends : ∀ token ∈ front, Plan.ends token = false)
    (hfront : Plan.steps front ⟨[], root⟩ = .ok plan) {left right : Expr} {position : Position}
    {first second operand : Operand} {middle built outer : Scopes}
    (hleft : left.build plan.scopes = .ok (first, middle))
    (hright : right.build middle = .ok (second, built))
    (h : (Expr.binary .comma left right position).build plan.scopes = .ok (operand, outer))
    {leftTy rightTy whole : Ty} {leftSegment rightSegment segment : Segment}
    (hleftTy : first.settle built = .ok (leftTy, leftSegment))
    (hrightTy : second.settle built = .ok (rightTy, rightSegment))
    (hwhole : operand.settle outer = .ok (whole, segment)) :
    ∃ state next, behind root (front ++ left.postfixTokens ++ right.postfixTokens) = .ok state ∧
      state.pendingType? 1 = some leftTy ∧ state.pendingType? 0 = some rightTy ∧
      behind root (front ++ (Expr.binary .comma left right position).postfixTokens) = .ok next ∧
      next.pendingType? 0 = some whole := by
  have hboth := steps_front_build (steps_front_build hfront hleft) hright
  obtain ⟨events, hstate⟩ := behind_of_steps
    (ends_append (ends_append hends left.ends_postfixTokens) right.ends_postfixTokens) hboth
  obtain ⟨later, hnext⟩ := behind_of_steps
    (ends_append hends (Expr.binary .comma left right position).ends_postfixTokens)
    (steps_front_build hfront h)
  exact ⟨_, _, hstate, Plan.pendingType?_state [.single second] events hleftTy,
    Plan.pendingType?_state [] events hrightTy, hnext, Plan.pendingType?_state [] later hwhole⟩

-- The same at square brackets.
private theorem pendingTypes_square (hends : ∀ token ∈ front, Plan.ends token = false)
    (hfront : Plan.steps front ⟨[], root⟩ = .ok plan) {inner : Expr} {opened closed : Position}
    {value operand : Operand} {middle outer : Scopes}
    (hinner : inner.build plan.scopes = .ok (value, middle))
    (h : (Expr.bracketed .square inner opened closed).build plan.scopes = .ok (operand, outer))
    {ty whole : Ty} {innerSegment segment : Segment}
    (hty : value.settle middle = .ok (ty, innerSegment))
    (hwhole : operand.settle outer = .ok (whole, segment)) :
    ∃ state next, behind root (front ++ inner.postfixTokens) = .ok state ∧
      state.pendingType? 0 = some ty ∧
      behind root (front ++ (Expr.bracketed .square inner opened closed).postfixTokens) = .ok next ∧
      next.pendingType? 0 = some whole := by
  obtain ⟨events, hstate⟩ := behind_of_steps (ends_append hends inner.ends_postfixTokens)
    (steps_front_build hfront hinner)
  obtain ⟨later, hnext⟩ := behind_of_steps
    (ends_append hends (Expr.bracketed .square inner opened closed).ends_postfixTokens)
    (steps_front_build hfront h)
  exact ⟨_, _, hstate, Plan.pendingType?_state [] events hty, hnext,
    Plan.pendingType?_state [] later hwhole⟩

end Analysis

-- At every comma and every pair of square brackets of a program. A comma adds to its left side
-- exactly if that is a list of commas or the name of a constant with an open type, and makes a pair
-- of its sides otherwise. Square brackets take the elements apart in the same two cases.
theorem comma_extends_iff (base library : Library) (registrations : List Registration)
    (hbase : base = .empty ∨ base = .standard)
    (hregister : base.registerAll registrations = .ok library)
    (htypes : ∀ name ty bytes, .constant name ty bytes ∈ registrations → ty.isWellFormed = true)
    (source : Bytes) (program : Program) (hcompile : Source.compile library source = .ok program) :
    ∃ parsed last root literals, Source.expr source = .ok (parsed, last) ∧
      Scopes.ofLibrary library = .ok (root, literals) ∧
      (∀ front left right position, parsed.At front (.binary .comma left right position) →
        ∃ state next leftTy rightTy whole,
          Analysis.behind root (front ++ left.postfixTokens ++ right.postfixTokens) = .ok state ∧
          state.pendingType? 1 = some leftTy ∧ state.pendingType? 0 = some rightTy ∧
          Analysis.behind root (front ++ (Expr.binary .comma left right position).postfixTokens) =
            .ok next ∧
          next.pendingType? 0 = some whole ∧
          (whole.same (.tuple [leftTy, rightTy]) = true ↔
            ¬ (left.isList = true ∨ library.Opens left leftTy)) ∧
          (left.isList = true ∨ library.Opens left leftTy →
            ∃ inner, leftTy.atoms = .tuple :: (inner ++ [.close]) ∧
              whole.atoms = .tuple :: (inner ++ rightTy.atoms ++ [.close]))) ∧
      ∀ front inner opened closed, parsed.At front (.bracketed .square inner opened closed) →
        ∃ state next ty whole, Analysis.behind root (front ++ inner.postfixTokens) = .ok state ∧
          state.pendingType? 0 = some ty ∧
          Analysis.behind root
            (front ++ (Expr.bracketed .square inner opened closed).postfixTokens) = .ok next ∧
          next.pendingType? 0 = some whole ∧
          (whole.same (.array ty 1) = true ↔
            ¬ (inner.ending.isList = true ∨ library.Opens inner.ending ty)) := by
  have hlibrary := Library.tidy_of_registerAll hbase hregister htypes
  obtain ⟨parsed, last, root, literals, hparsed, hroot, hparts⟩ := Source.steps_of_compile hcompile
  have hstart : library.Binds (Analysis.Plan.mk [] root).scopes := hlibrary.binds hroot
  refine ⟨parsed, last, root, literals, hparsed, hroot, ?_, ?_⟩
  · intro front left right position hat
    obtain ⟨plan, operand, outer, hfront, hbuild, hends⟩ := hparts front _ hat
    obtain ⟨first, middle, second, built, hleft, hright, hsign⟩ := Expr.build_binary hbuild
    have hplan := hstart.steps hfront
    have hbuilt := (hplan.build hleft).build hright
    obtain ⟨⟨leftTy, leftSegment⟩, hleftTy, hsign⟩ := bind_eq_ok.mp hsign
    obtain ⟨⟨rightTy, rightSegment⟩, hrightTy, hsign⟩ := bind_eq_ok.mp hsign
    obtain ⟨whole, happend, hsign⟩ := bind_eq_ok.mp hsign
    obtain ⟨rfl, rfl⟩ := Analysis.join_eq_ok.mp hsign
    have happend := inRange_eq_ok.mp happend
    obtain ⟨state, next, hstate, hstateLeft, hstateRight, hnext, hnextWhole⟩ :=
      Analysis.pendingTypes_comma hends hfront hleft hright hbuild hleftTy hrightTy rfl
    have htells := Expr.tells_of_build hlibrary.constant hplan hleft hbuilt hleftTy
    rw [Source.ending_left_of_comma hparsed hat] at htells
    refine ⟨state, next, leftTy, rightTy, whole, hstate, hstateLeft, hstateRight, hnext, hnextWhole,
      ?_, ?_⟩
    · rw [Ty.append?_same_pair_iff htells.grows happend, ← htells.isOpen_iff, Bool.not_eq_true]
    · intro hopens
      have hopen := htells.isOpen_iff.mpr hopens
      obtain ⟨inner, hinner⟩ := htells.grows hopen
      exact ⟨inner, hinner.atoms, (Ty.append?_of_isOpen hopen hinner happend).2.atoms⟩
  · intro front inner opened closed hat
    obtain ⟨plan, operand, outer, hfront, hbuild, hends⟩ := hparts front _ hat
    obtain ⟨value, middle, hinner, harray⟩ := Expr.build_square hbuild
    have hplan := hstart.steps hfront
    obtain ⟨⟨ty, segment⟩, hty, harray⟩ := bind_eq_ok.mp harray
    obtain ⟨⟨element, count⟩, helements, harray⟩ := bind_eq_ok.mp harray
    cases harray
    obtain ⟨state, next, hstate, hstateTy, hnext, hnextWhole⟩ :=
      Analysis.pendingTypes_square hends hfront hinner hbuild hty rfl
    have htells := Expr.tells_of_build hlibrary.constant hplan hinner (hplan.build hinner) hty
    refine ⟨state, next, ty, _, hstate, hstateTy, hnext, hnextWhole, ?_⟩
    rw [Ty.elementsOf_same_array_iff htells.grows helements, ← htells.isOpen_iff, Bool.not_eq_true]

-- What a comma makes of two numbers, the same closed, and a number, each the type of a constant.
def Ty.loose : Ty :=
  ⟨[.tuple, .prim .i32, .prim .i32, .close], [⟨"_1", 1, 0⟩, ⟨"_2", 2, 4⟩], false⟩

def Registration.pairs : List Registration :=
  [.constant "c" .loose [1, 0, 0, 0, 2, 0, 0, 0],
    .constant "d" Ty.loose.close [3, 0, 0, 0, 4, 0, 0, 0],
    .constant "n" (.ofPrimitive .i32) [5, 0, 0, 0]]

def Source.lists : Bytes := "d, n, [d]".toUTF8.toList

def Expr.pair : Expr := .binary .comma (.name "d" ⟨1, 1, 0⟩) (.name "n" ⟨1, 4, 3⟩) ⟨1, 2, 1⟩

def Expr.inSquares : Expr := .bracketed .square (.name "d" ⟨1, 8, 7⟩) ⟨1, 7, 6⟩ ⟨1, 9, 8⟩

def Expr.lists : Expr := .binary .comma .pair .inSquares ⟨1, 5, 4⟩

-- The first comma makes a pair of a closed constant and a number, the second one adds to it.
theorem comma_extends_pairs :
    ∃ library program root literals,
      Library.empty.registerAll Registration.pairs = .ok library ∧
      Ty.loose.isWellFormed = true ∧ Source.compile library Source.lists = .ok program ∧
      Scopes.ofLibrary library = .ok (root, literals) ∧
      (∃ state next whole,
        Analysis.behind root ((Expr.name "d" ⟨1, 1, 0⟩).postfixTokens ++
          (Expr.name "n" ⟨1, 4, 3⟩).postfixTokens) = .ok state ∧
        state.pendingType? 1 = some Ty.loose.close ∧
        state.pendingType? 0 = some (.ofPrimitive .i32) ∧
        Analysis.behind root Expr.pair.postfixTokens = .ok next ∧
        next.pendingType? 0 = some whole ∧
        whole.same (.tuple [Ty.loose.close, .ofPrimitive .i32]) = true) ∧
      (∃ state next leftTy whole,
        Analysis.behind root (Expr.pair.postfixTokens ++ Expr.inSquares.postfixTokens) =
          .ok state ∧
        state.pendingType? 1 = some leftTy ∧
        leftTy.atoms = .tuple :: (Ty.loose.atoms ++ [.prim .i32] ++ [.close]) ∧
        state.pendingType? 0 = some (.array Ty.loose.close 1) ∧
        Analysis.behind root Expr.lists.postfixTokens = .ok next ∧
        next.pendingType? 0 = some whole ∧
        whole.atoms = .tuple :: (Ty.loose.atoms ++ [.prim .i32] ++
          (Ty.array Ty.loose.close 1).atoms ++ [.close])) ∧
      ∃ state next whole,
        Analysis.behind root (Expr.pair.postfixTokens ++
          (Expr.name "d" ⟨1, 8, 7⟩).postfixTokens) = .ok state ∧
        state.pendingType? 0 = some Ty.loose.close ∧
        Analysis.behind root (Expr.pair.postfixTokens ++ Expr.inSquares.postfixTokens) = .ok next ∧
        next.pendingType? 0 = some whole ∧ whole.same (.array Ty.loose.close 1) = true := by
  obtain ⟨library, root, literals, hregister, hroot, hclosed, hcompiles, hsides, hlast, hinside⟩ :
      ∃ library root literals, Library.empty.registerAll Registration.pairs = .ok library ∧
      Scopes.ofLibrary library = .ok (root, literals) ∧
      (∀ constant ∈ library.constants, constant.name = "d" → constant.ty.isOpen = false) ∧
      (Source.compile library Source.lists).toOption.any (fun _ => true) = true ∧
      (Analysis.behind root ((Expr.name "d" ⟨1, 1, 0⟩).postfixTokens ++
        (Expr.name "n" ⟨1, 4, 3⟩).postfixTokens)).toOption.any (fun state =>
          state.pendingType? 1 = some Ty.loose.close ∧
            state.pendingType? 0 = some (.ofPrimitive .i32)) = true ∧
      (Analysis.behind root (Expr.pair.postfixTokens ++ Expr.inSquares.postfixTokens)).toOption.any
        (fun state => (state.pendingType? 1).map Ty.atoms =
            some (.tuple :: (Ty.loose.atoms ++ [.prim .i32] ++ [.close])) ∧
          state.pendingType? 0 = some (.array Ty.loose.close 1)) = true ∧
      (Analysis.behind root (Expr.pair.postfixTokens ++
        (Expr.name "d" ⟨1, 8, 7⟩).postfixTokens)).toOption.any (fun state =>
          state.pendingType? 0 = some Ty.loose.close) = true :=
    ⟨_, _, _, rfl, rfl, by decide +kernel, by decide +kernel, by decide +kernel, by decide +kernel,
      by decide +kernel⟩
  obtain ⟨program, hcompile, -⟩ := exists_ok_of_any hcompiles
  have htypes : ∀ name ty bytes, .constant name ty bytes ∈ Registration.pairs →
      ty.isWellFormed = true := by
    intro name ty bytes hmem
    simp only [Registration.pairs, List.mem_cons, Registration.constant.injEq, List.not_mem_nil,
      or_false] at hmem
    rcases hmem with ⟨-, rfl, -⟩ | ⟨-, rfl, -⟩ | ⟨-, rfl, -⟩
    · decide +kernel
    · decide +kernel
    · decide +kernel
  have hparsed : (Source.expr Source.lists).toOption.any (fun found => found.1 = .lists) =
      true := by decide +kernel
  obtain ⟨⟨found, place⟩, hfound, hlists⟩ := exists_ok_of_any hparsed
  obtain ⟨parsed, last, base, pool, hexpr, hbase, hcommas, hsquares⟩ :=
    comma_extends_iff .empty library _ (.inl rfl) hregister htypes _ program hcompile
  cases hexpr.symm.trans hfound
  cases of_decide_eq_true hlists
  cases hbase.symm.trans hroot
  have hname : ∀ place ty, ¬ library.Opens (.name "d" place) ty := by
    rintro place ty ⟨text, position, hbare, constant, hmem, hname, rfl, hopen⟩
    cases hbare
    rw [hclosed constant hmem hname] at hopen
    contradiction
  have hpair : Expr.lists.At [] .pair := .part (by simp [Expr.lists, Expr.operands])
  have hsquare : Expr.lists.At Expr.pair.postfixTokens .inSquares :=
    .part (by simp [Expr.lists, Expr.operands])
  refine ⟨library, program, root, literals, hregister, by decide +kernel, hcompile, hroot,
    ?_, ?_, ?_⟩
  · obtain ⟨state, next, leftTy, rightTy, whole, hstate, hleft, hright, hnext, hwhole, hsame, -⟩ :=
      hcommas _ _ _ _ hpair
    obtain ⟨sides, hbehind, htest⟩ := exists_ok_of_any hsides
    cases hbehind.symm.trans hstate
    obtain ⟨hleft', hright'⟩ := of_decide_eq_true htest
    cases hleft.symm.trans hleft'
    cases hright.symm.trans hright'
    refine ⟨state, next, whole, hstate, hleft, hright, hnext, hwhole, hsame.mpr ?_⟩
    rintro (hlist | hopens)
    · contradiction
    · exact hname _ _ hopens
  · obtain ⟨state, next, leftTy, rightTy, whole, hstate, hleft, hright, hnext, hwhole, -, hgrown⟩ :=
      hcommas _ _ _ _ (.here Expr.lists)
    obtain ⟨sides, hbehind, htest⟩ := exists_ok_of_any hlast
    cases hbehind.symm.trans hstate
    obtain ⟨hleft', hright'⟩ := of_decide_eq_true htest
    cases hright.symm.trans hright'
    rw [hleft, Option.map_some, Option.some.injEq] at hleft'
    obtain ⟨inner, hinner, hatoms⟩ := hgrown (.inl rfl)
    rw [hleft'] at hinner
    cases List.append_cancel_right (List.cons.inj hinner).2
    exact ⟨state, next, leftTy, whole, hstate, hleft, hleft', hright, hnext, hwhole, hatoms⟩
  · obtain ⟨state, next, ty, whole, hstate, hty, hnext, hwhole, hsame⟩ := hsquares _ _ _ _ hsquare
    obtain ⟨sides, hbehind, htest⟩ := exists_ok_of_any hinside
    cases hbehind.symm.trans hstate
    cases hty.symm.trans (of_decide_eq_true htest)
    refine ⟨state, next, whole, hstate, hty, hnext, hwhole, hsame.mpr ?_⟩
    rintro (hlist | hopens)
    · contradiction
    · exact hname _ _ hopens

-- The name of a constant with the type that a comma makes: another comma adds to the constant, and
-- square brackets take it apart.
theorem comma_extends_constant :
    (Ty.ofPrimitive .i32).append? (.ofPrimitive .i32) = some .loose ∧
    Ty.loose.isWellFormed = true ∧
    ∃ library, Library.empty.registerAll Registration.pairs = .ok library ∧
      (∃ program, Source.compile library "c, n".toUTF8.toList = .ok program ∧
        ∃ instruction ∈ program.instructions, instruction.op = .tuple ∧
          instruction.operands = [.loose, .ofPrimitive .i32] ∧
          instruction.result.same (.tuple [.loose, .ofPrimitive .i32]) = false) ∧
      ∃ program, Source.compile library "[c]".toUTF8.toList = .ok program ∧
        ∃ instruction ∈ program.instructions, instruction.op = .finish ∧
          instruction.result = .array (.ofPrimitive .i32) 2 := by
  refine ⟨by decide +kernel, by decide +kernel, ?_⟩
  obtain ⟨library, hregister, hcomma, hsquare⟩ : ∃ library,
      Library.empty.registerAll Registration.pairs = .ok library ∧
      (Source.compile library "c, n".toUTF8.toList).toOption.any (fun program => decide
        (∃ instruction ∈ program.instructions, instruction.op = .tuple ∧
          instruction.operands = [.loose, .ofPrimitive .i32] ∧
          instruction.result.same (.tuple [.loose, .ofPrimitive .i32]) = false)) = true ∧
      (Source.compile library "[c]".toUTF8.toList).toOption.any (fun program => decide
        (∃ instruction ∈ program.instructions, instruction.op = .finish ∧
          instruction.result = .array (.ofPrimitive .i32) 2)) = true :=
    ⟨_, rfl, by decide +kernel, by decide +kernel⟩
  obtain ⟨program, hcompile, htest⟩ := exists_ok_of_any hcomma
  obtain ⟨other, hother, htest'⟩ := exists_ok_of_any hsquare
  exact ⟨library, hregister, ⟨program, hcompile, of_decide_eq_true htest⟩, other, hother,
    of_decide_eq_true htest'⟩

end Sluice
