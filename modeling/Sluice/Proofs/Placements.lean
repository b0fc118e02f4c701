import Mathlib
import Sluice.Library.Standard
import Sluice.Proofs.CompiledTypes
import Sluice.Proofs.Operations

namespace Sluice

namespace Tree

def isPrimitive : Tree → Bool
  | .prim _ => true
  | _ => false

-- A number, or some numbers next to each other.
def isFlat : Tree → Bool
  | .prim _ => true
  | .tuple elements => elements.all isPrimitive
  | _ => false

-- At most two floats.
def isSmall (tree : Tree) : Bool := tree.isFlat && tree.size ≤ 16

mutual

-- Every function that occurs in the tree takes and gives something small.
def isSlim : Tree → Bool
  | .prim _ => true
  | .tuple elements => areSlim elements
  | .array element _ => element.isSlim
  | .func result argument => result.isSmall && argument.isSmall

def areSlim : List Tree → Bool
  | [] => true
  | tree :: rest => tree.isSlim && areSlim rest

end

theorem areSlim_iff {trees : List Tree} :
    areSlim trees = true ↔ ∀ tree ∈ trees, tree.isSlim = true := by
  induction trees with
  | nil => simp [areSlim]
  | cons tree rest ih => simp [areSlim, ih]

theorem isSlim_of_isFlat {tree : Tree} (h : tree.isFlat = true) : tree.isSlim = true := by
  cases tree with
  | prim primitive => rfl
  | tuple elements =>
      rw [isSlim, areSlim_iff]
      intro tree hmem
      have hprimitive : tree.isPrimitive = true := List.all_eq_true.mp h tree hmem
      cases tree with
      | prim primitive => rfl
      | _ => contradiction
  | _ => contradiction

theorem isSlim_joined {left right : Tree} (isOpen : Bool) (hleft : left.isSlim = true)
    (hright : right.isSlim = true) : (Ty.joined isOpen left right).isSlim = true := by
  unfold Ty.joined
  split
  · rw [isSlim, areSlim_iff] at hleft ⊢
    exact List.forall_mem_append.mpr ⟨hleft, List.forall_mem_singleton.mpr hright⟩
  · simp [isSlim, areSlim, hleft, hright]

-- What fits a number takes no more bytes than the number: a wildcard takes none.
theorem size_le_of_fits_prim {wanted : Tree} {primitive : Primitive}
    (h : wanted.fits (.prim primitive) = true) :
    wanted.isPrimitive = true ∧ wanted.size ≤ primitive.width := by
  cases wanted with
  | prim other =>
      refine ⟨rfl, ?_⟩
      by_cases hwild : other = .undecided
      · subst hwild
        exact Nat.zero_le _
      · have heq : other = primitive := by simpa [fits, hwild] using h
        rw [heq, size]
  | _ => simp [fits] at h

private theorem sizeAll_le_of_fitsAll {wanted found : List Tree} (h : fitsAll wanted found = true)
    (hfound : ∀ tree ∈ found, tree.isPrimitive = true) :
    (∀ tree ∈ wanted, tree.isPrimitive = true) ∧ sizeAll wanted ≤ sizeAll found := by
  induction wanted generalizing found with
  | nil => simp [sizeAll]
  | cons tree rest ih =>
      cases found with
      | nil => simp [fitsAll] at h
      | cons other others =>
          rw [fitsAll, Bool.and_eq_true] at h
          obtain ⟨hother, hothers⟩ := List.forall_mem_cons.mp hfound
          obtain ⟨hrest, hsizes⟩ := ih h.2 hothers
          cases other with
          | prim primitive =>
              obtain ⟨htree, hsize⟩ := size_le_of_fits_prim h.1
              refine ⟨List.forall_mem_cons.mpr ⟨htree, hrest⟩, ?_⟩
              simp only [sizeAll, size]
              omega
          | _ => contradiction

-- What fits something small is small.
theorem isSmall_of_fits {wanted found : Tree} (h : wanted.fits found = true)
    (hfound : found.isSmall = true) : wanted.isSmall = true := by
  obtain ⟨hflat, hsize⟩ := Bool.and_eq_true_iff.mp hfound
  rw [decide_eq_true_eq] at hsize
  rw [isSmall, Bool.and_eq_true, decide_eq_true_eq]
  cases found with
  | prim primitive =>
      obtain ⟨hprimitive, hwidth⟩ := size_le_of_fits_prim h
      rw [size] at hsize
      cases wanted with
      | prim other => exact ⟨rfl, Nat.le_trans hwidth hsize⟩
      | _ => contradiction
  | tuple others =>
      cases wanted with
      | prim other =>
          have hwild : other = .undecided := by
            by_contra hother
            simp [fits, hother] at h
          exact ⟨rfl, by simp [hwild, size, Primitive.width]⟩
      | tuple elements =>
          obtain ⟨helements, hsizes⟩ := sizeAll_le_of_fitsAll h (List.all_eq_true.mp hflat)
          rw [size] at hsize
          exact ⟨List.all_eq_true.mpr helements, Nat.le_trans hsizes hsize⟩
      | _ => simp [fits] at h
  | _ => contradiction

-- The first part of a small argument is small.
theorem isSmall_of_joined {left right : Tree} {isOpen : Bool}
    (h : (Ty.joined isOpen left right).isSmall = true) : left.isSmall = true := by
  obtain ⟨hflat, hsize⟩ := Bool.and_eq_true_iff.mp h
  rw [decide_eq_true_eq, Ty.size_joined] at hsize
  rw [isSmall, Bool.and_eq_true, decide_eq_true_eq]
  refine ⟨?_, by omega⟩
  unfold Ty.joined at hflat
  split at hflat
  · simp only [isFlat, List.all_append, Bool.and_eq_true] at hflat ⊢
    exact hflat.1
  · simp only [isFlat, List.all_cons, Bool.and_eq_true] at hflat
    cases left with
    | prim primitive => rfl
    | _ => simp [isPrimitive] at hflat

end Tree

namespace Ty

-- A type all of whose functions have small arguments and small results.
def Slim (ty : Ty) : Prop := ∃ tree, ty.Describes tree ∧ tree.isSlim = true

def Small (ty : Ty) : Prop := ∃ tree, ty.Describes tree ∧ tree.isSmall = true

variable {ty : Ty}

theorem Slim.isWellFormed (h : ty.Slim) : ty.isWellFormed = true := by
  obtain ⟨tree, htree, -⟩ := h
  exact isWellFormed_iff.mpr ⟨tree, htree⟩

theorem Small.slim (h : ty.Small) : ty.Slim := by
  obtain ⟨tree, htree, hsmall⟩ := h
  exact ⟨tree, htree, Tree.isSlim_of_isFlat (Bool.and_eq_true_iff.mp hsmall).1⟩

theorem Small.extent_le (h : ty.Small) : ty.extent ≤ 16 := by
  obtain ⟨tree, htree, hsmall⟩ := h
  rw [htree.extent_eq]
  exact of_decide_eq_true (Bool.and_eq_true_iff.mp hsmall).2

theorem Small.isArray (h : ty.Small) : ty.isArray = false := by
  obtain ⟨tree, htree, hsmall⟩ := h
  rw [Ty.isArray, htree.atoms]
  cases tree with
  | array element count => simp [Tree.isSmall, Tree.isFlat] at hsmall
  | _ => simp [startsWith, Tree.atoms]

theorem slim_func {result argument : Ty} (hresult : result.Small) (hargument : argument.Small) :
    (func result argument).Slim := by
  obtain ⟨resultTree, hresultTree, hresult⟩ := hresult
  obtain ⟨argumentTree, hargumentTree, hargument⟩ := hargument
  exact ⟨_, describes_func hresultTree hargumentTree, by simp [Tree.isSlim, hresult, hargument]⟩

-- The result of a slim function, and every argument that it takes.
theorem Slim.result {result : Ty} (h : ty.Slim) (hresult : ty.result? = some result) :
    result.Small := by
  obtain ⟨tree, htree, hslim⟩ := h
  obtain ⟨resultTree, argumentTree, rfl⟩ := htree.eq_func (isFunc_of_result? hresult)
  cases hresult.symm.trans htree.result?
  rw [Tree.isSlim, Bool.and_eq_true] at hslim
  exact ⟨resultTree, describes_ofAtoms resultTree, hslim.1⟩

theorem Slim.argument {argument : Ty} (h : ty.Slim) (hargument : argument.isWellFormed = true)
    (hmatches : (func .undecided argument).matches? ty = some true) : argument.Small := by
  obtain ⟨tree, htree, hslim⟩ := h
  obtain ⟨wanted, hwanted⟩ := isWellFormed_iff.mp hargument
  have hpattern := describes_func (describes_ofPrimitive .undecided) hwanted
  have hfits := Option.some.inj ((hpattern.matches? htree).symm.trans hmatches)
  refine ⟨wanted, hwanted, ?_⟩
  cases tree with
  | func result found =>
      rw [Tree.fits, Bool.and_eq_true] at hfits
      rw [Tree.isSlim, Bool.and_eq_true] at hslim
      exact Tree.isSmall_of_fits hfits.2 hslim.2
  | _ => simp [Tree.fits] at hfits

theorem Small.of_append? {left right whole : Ty} (h : whole.Small)
    (hleft : left.isWellFormed = true) (hright : right.isWellFormed = true)
    (happend : left.append? right = some whole) : left.Small := by
  obtain ⟨leftTree, hleft⟩ := isWellFormed_iff.mp hleft
  obtain ⟨rightTree, hright⟩ := isWellFormed_iff.mp hright
  obtain ⟨found, hfound, hdescribes, -⟩ := append?_describes hleft hright
  cases happend.symm.trans hfound
  obtain ⟨tree, htree, hsmall⟩ := h
  rw [htree.unique hdescribes] at hsmall
  exact ⟨leftTree, hleft, Tree.isSmall_of_joined hsmall⟩

theorem kept_slim : Kept Slim := by
  apply kept_of_trees
  · exact fun {_} _ => rfl
  · exact fun _ hslim => hslim
  · intro left right isOpen hleft hright
    exact Tree.isSlim_joined isOpen hleft hright
  · intro result argument hslim
    rw [Tree.isSlim, Bool.and_eq_true] at hslim
    exact Tree.isSlim_of_isFlat (Bool.and_eq_true_iff.mp hslim.1).1
  · intro elements tree hslim hmem
    rw [Tree.isSlim, Tree.areSlim_iff] at hslim
    exact hslim tree hmem

end Ty

-- The functions of a library have small arguments and results, and its constants are small.
structure Library.Slim (library : Library) : Prop where
  native : ∀ native ∈ library.natives, native.ty.Slim ∧ native.ty.isFunc = true
  constant : ∀ constant ∈ library.constants, constant.ty.Small

namespace Library

theorem small_integer : integer.Small := ⟨_, Ty.describes_ofPrimitive .i32, by decide⟩

theorem small_float : float.Small := ⟨_, Ty.describes_ofPrimitive .f64, by decide⟩

theorem small_integerPair : integerPair.Small := by
  refine ⟨.tuple [.prim .i32, .prim .i32], Ty.describes_tuple ?_, by decide⟩
  exact .cons (Ty.describes_ofPrimitive .i32) (.cons (Ty.describes_ofPrimitive .i32) .nil)

theorem small_floatPair : floatPair.Small := by
  refine ⟨.tuple [.prim .f64, .prim .f64], Ty.describes_tuple ?_, by decide⟩
  exact .cons (Ty.describes_ofPrimitive .f64) (.cons (Ty.describes_ofPrimitive .f64) .nil)

theorem slim_standard : standard.Slim := by
  have hinteger := small_integer
  have hfloat := small_float
  have hintegers := small_integerPair
  have hfloats := small_floatPair
  constructor
  · simp only [standard, List.forall_mem_cons, List.not_mem_nil, false_imp_iff, implies_true,
      and_true, Native.ofFunction]
    refine ⟨?_, ?_, ?_, ?_, ?_, ?_, ?_, ?_, ?_, ?_, ?_, ?_⟩ <;>
      exact ⟨Ty.slim_func (by assumption) (by assumption), rfl⟩
  · simp only [standard, List.forall_mem_cons, List.not_mem_nil, false_imp_iff, implies_true,
      and_true]
    exact ⟨hfloat, hfloat⟩

end Library

namespace Analysis

-- Code that leaves every value on top of the stack but those of pipes. A piped value starts a handle
-- above the top, and the handle of the callee goes back over the value and the gap: that way has to
-- fit into the placement.
inductive Placed : List Instruction → Prop
  | nil : Placed []
  | append {front back : List Instruction} (hfront : Placed front) (hback : Placed back) :
      Placed (front ++ back)
  | top {instruction : Instruction} (h : instruction.placement = 0) : Placed [instruction]
  | pipe {value callee : Segment} {placement : Int32} (hvalue : Placed value.init)
      (hcallee : Placed callee.init)
      (hsize : value.last.result.extent + handleWidth < 2147483648)
      (hplacement : placement.toInt = -((value.last.result.extent + handleWidth : Nat) : Int)) :
      Placed (value.code gap ++ callee.code placement)

theorem Placed.code {segment : Segment} (h : Placed segment.init) : Placed (segment.code 0) :=
  h.append (.top rfl)

-- The placement of the last instruction is still open.
def Piece.Placed : Piece → Prop
  | .single operand => Analysis.Placed operand.segment.init
  | .piped _ value callee => Analysis.Placed value.init ∧ Analysis.Placed callee.segment.init

section Signs

variable {scopes outer : Scopes} {ty : Ty} {segment : Segment}

theorem Piece.Placed.settle {piece : Piece} (hpiece : piece.Placed)
    (h : piece.settle scopes = .ok (ty, segment)) : Analysis.Placed segment.init := by
  match piece with
  | .single (.value _ _) =>
      cases h
      exact hpiece
  | .single (.name text position) =>
      simp only [Piece.settle, Operand.settle] at h
      split at h
      · contradiction
      · cases h
        exact .nil
  | .piped _ _ _ => contradiction

theorem Operand.placed_settleCallee {callee : Operand} {argument : Ty} {position : Position}
    (hcallee : Analysis.Placed callee.segment.init)
    (h : callee.settleCallee scopes argument position = .ok (ty, segment)) :
    Analysis.Placed segment.init := by
  match callee with
  | .value _ _ =>
      obtain ⟨-, rfl, -, -⟩ := Operand.eq_of_settleCallee_value h
      exact hcallee
  | .name text place =>
      simp only [Operand.settleCallee] at h
      split at h
      · contradiction
      · cases h
        exact .nil

-- A small piped value is the result of its last instruction, so the way back over it is exact.
theorem placed_pipe {value callee : Segment} (hsmall : ty.Small) (hshows : value.Shows ty)
    (hvalue : Placed value.init) (hcallee : Placed callee.init) :
    Placed (value.code gap ++ callee.code (backward ty)) := by
  have hextent : value.last.result.extent = ty.extent := by
    rw [Ty.extent, hshows hsmall.isArray, Ty.extent]
  have hsize : ty.extent ≤ 16 := hsmall.extent_le
  have hwidth : handleWidth = 8 := rfl
  refine .pipe hvalue hcallee ?_ ?_
  · omega
  · rw [hextent, Nat.add_comm]
    exact toInt_backward hsmall.slim.isWellFormed (by omega)

theorem Makes.placed {kind : Token.Kind} {taken : List Piece} {operand : Operand}
    (h : Makes scopes kind taken operand outer) (htyped : ∀ piece ∈ taken, piece.Typed Ty.Slim)
    (hscopes : scopes.Typed Ty.Slim) (htaken : ∀ piece ∈ taken, piece.Placed) :
    Placed operand.segment.init := by
  have hsettle : ∀ {piece : Piece} {ty : Ty} {segment : Segment}, piece ∈ taken →
      piece.settle scopes = .ok (ty, segment) → Placed segment.init :=
    fun hmem hsettled => (htaken _ hmem).settle hsettled
  cases h with
  | int position hleast hgreatest => exact .nil
  | float bits position => exact .nil
  | assign position hright hsize hdeclare =>
      exact .append (.top rfl) (hsettle (by simp) hright).code
  | arithmetic op position hop hleft hright hnumeric hsame =>
      exact (hsettle (by simp) hleft).code.append (hsettle (by simp) hright).code
  | negate position hsettled hnumeric => exact (hsettle (by simp) hsettled).code
  | tuple position hleft hright happend =>
      exact (hsettle (by simp) hleft).code.append (hsettle (by simp) hright).code
  | sequence position hleft hright =>
      exact (hsettle (by simp) hleft).code.append (hsettle (by simp) hright).code
  | @call callee argument _ _ _ _ _ position hargument hcallee hresult =>
      have hsingle : Placed callee.segment.init := htaken (.single callee) (by simp)
      have hcode := Operand.placed_settleCallee hsingle hcallee
      exact hcode.code.append (hsettle (by simp) hargument).code
  | @callPiped callee argument ty valueTy whole calleeTy _ value _ _ position hargument happend
      hcallee hresult =>
      have hpiped : (Piece.piped valueTy value callee).Typed Ty.Slim := htyped _ (by simp)
      have hplaced : (Piece.piped valueTy value callee).Placed := htaken _ (by simp)
      have hvalueTy := hpiped.1.1
      have hty : ty.Slim := ((htyped argument (by simp)).settle hscopes hargument).1
      have hcalleeTy := (hpiped.2.settleCallee hscopes hcallee).1
      have hwhole : whole.Small := hcalleeTy.argument
        (Ty.kept_slim.append hvalueTy hty happend).isWellFormed
        (Operand.matches_of_settleCallee hcallee)
      have hsmall := hwhole.of_append? hvalueTy.isWellFormed hty.isWellFormed happend
      have hcode := placed_pipe hsmall hpiped.1.2 hplaced.1
        (Operand.placed_settleCallee hplaced.2 hcallee)
      exact hcode.append (hsettle (by simp) hargument).code
  | @completed callee ty calleeTy _ value _ position hcallee hresult =>
      have hpiped : (Piece.piped ty value callee).Typed Ty.Slim := htyped _ (by simp)
      have hplaced : (Piece.piped ty value callee).Placed := htaken _ (by simp)
      have hcalleeTy := (hpiped.2.settleCallee hscopes hcallee).1
      have hsmall : ty.Small := hcalleeTy.argument hpiped.1.1.isWellFormed
        (Operand.matches_of_settleCallee hcallee)
      exact placed_pipe hsmall hpiped.1.2 hplaced.1 (Operand.placed_settleCallee hplaced.2 hcallee)
  | member position hsubject htuple hrow hinner =>
      exact (hsettle (by simp) hsubject).code.append (.top rfl)
  | group ty segment => exact htaken (.single (.value ty segment)) (by simp)
  | groupName text position => exact .nil
  | array hsettled helements => exact hsettle (by simp) hsettled
  | blockEnd hsettled hleave => exact hsettle (by simp) hsettled

end Signs

structure Plan.Placed (plan : Plan) : Prop where
  typed : plan.Typed Ty.Slim
  pieces : ∀ piece ∈ plan.pieces, piece.Placed

theorem Plan.Placed.step {plan next : Plan} (h : plan.Step next)
    (hall : ∀ instruction ∈ next.code, instruction.Indexable) (hplan : plan.Placed) :
    next.Placed := by
  refine ⟨hplan.typed.step Ty.kept_slim h hall, ?_⟩
  cases h with
  | name text position pieces scopes => exact List.forall_mem_cons.mpr ⟨.nil, hplan.pieces⟩
  | enter pieces scopes => exact hplan.pieces
  | @pipe value callee rest scopes ty segment size hvalue hsize =>
      have hpieces := hplan.pieces
      simp only [List.forall_mem_cons] at hpieces
      exact List.forall_mem_cons.mpr ⟨⟨hpieces.2.1.settle hvalue, hpieces.1⟩, hpieces.2.2⟩
  | @made kind taken rest scopes outer operand hmakes =>
      obtain ⟨htyped, -⟩ := List.forall_mem_append.mp hplan.typed.pieces
      obtain ⟨htaken, hrest⟩ := List.forall_mem_append.mp hplan.pieces
      exact List.forall_mem_cons.mpr ⟨hmakes.placed htyped hplan.typed.scopes htaken, hrest⟩

-- Pipes into small arguments have room for every placement, however large the other values are.
theorem placed_compile {library : Library} {tokens : List Token} {program : Program}
    (hlibrary : library.Slim) (hcompile : (compile library tokens).2 = .ok program)
    (hall : ∀ instruction ∈ program.instructions, instruction.Indexable) :
    Placed program.instructions.toList := by
  obtain ⟨scopes, literals, final, piece, ty, segment, position, hroot, hsteps, hpieces, hsettle,
    rfl⟩ := compile_eq_ok hcompile
  simp only [List.mem_toArray, List.forall_mem_append, uniform_indexable.code_iff] at hall
  have hcode := forall_code_of_settle uniform_indexable hpieces hsettle hall.1
  have hfirst : Plan.Placed ⟨[], scopes⟩ :=
    ⟨⟨by simp, Scopes.typed_ofLibrary (fun native hmem => (hlibrary.native native hmem).1)
      (fun constant hmem => (hlibrary.constant constant hmem).slim) hroot⟩, by simp⟩
  have hfinal := Plan.keeps uniform_indexable (fun hstep hcode hplan => hplan.step hstep hcode)
    hsteps hcode hfirst
  have hsegment := (hfinal.pieces piece (by simp [hpieces])).settle hsettle
  exact hsegment.code.append (.top rfl)

end Analysis

end Sluice
