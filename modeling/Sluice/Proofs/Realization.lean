import Mathlib
import Sluice.Proofs.Environments
import Sluice.Proofs.Pipes
import Sluice.Proofs.Translation

namespace Sluice

theorem Tree.eq_prim_of_numeric? {tree : Tree} {primitive : Primitive}
    (h : tree.numeric? = some primitive) :
    tree = .prim primitive ∧ primitive.isNumeric = true := by
  cases tree with
  | prim found =>
      simp only [Tree.numeric?, Option.ite_none_right_eq_some, Option.some.injEq] at h
      exact ⟨congrArg _ h.2, h.2 ▸ h.1⟩
  | _ => contradiction

theorem Ty.Describes.numeric?_tree {ty : Ty} {tree : Tree} (h : ty.Describes tree) :
    ty.numeric? = tree.numeric? := by
  rw [h.numeric?_eq]
  cases tree <;> rfl

theorem Ty.small_ofPrimitive (primitive : Primitive) :
    (Ty.ofPrimitive primitive).extent < 2147483640 := by
  rw [Ty.extent_ofPrimitive]
  cases primitive <;> decide

-- The row of a member and its element stand at the same place of the tuple.
theorem Tree.rel_named (name : String) (before trees : List Tree) :
    Option.Rel (fun (row : Member) (found : Nat × Tree) => ∃ front after,
        before ++ trees = front ++ found.2 :: after ∧ found.1 = sizeAll front ∧
        row.index = UInt64.ofNat (1 + (atomsAll front).length) ∧
        row.offset = UInt32.ofNat (sizeAll front))
      ((rows (1 + before.length) (1 + (atomsAll before).length) (sizeAll before) trees).find?
        (·.name = name))
      (named (1 + before.length) (sizeAll before) trees name) := by
  induction trees generalizing before with
  | nil => exact .none
  | cons tree rest ih =>
      rw [rows, List.find?_cons, named]
      by_cases hname : Ty.memberName (1 + before.length) = name
      · simp only [hname, decide_true, if_true]
        exact .some ⟨before, rest, rfl, rfl, rfl, rfl⟩
      · simp only [hname, decide_false, if_false]
        have hrest := ih (before ++ [tree])
        simp only [List.length_append, List.length_singleton, atomsAll_append, sizeAll_append,
          atomsAll, sizeAll, List.append_nil, Nat.add_zero, List.append_assoc,
          List.singleton_append, ← Nat.add_assoc] at hrest
        exact hrest

-- What an operator makes of two values is open behind a comma, and as the second value behind a
-- semicolon.
def Operator.opens (operator : Operator) (rightOpen : Bool) : Bool :=
  match operator with
  | .comma => true
  | .sequence => rightOpen
  | _ => false

namespace Analysis

variable {setting : Setting} {frame after : Bytes}

-- Code that fails from a frame on, whatever lies on the stack.
def Stuck (setting : Setting) (frame : Bytes) (code : List Instruction) : Prop :=
  ∀ stack, ∃ failure,
    Machine.exec setting.literals setting.library (.laid frame stack) code = .error failure

-- Code that fails or leaves another frame.
def Passes (setting : Setting) (frame : Bytes) (code : List Instruction) (after : Bytes) : Prop :=
  ∀ stack store, Machine.exec setting.literals setting.library (.laid frame stack) code = .ok store →
    ∃ rest, store = .laid after rest

section Codes

variable {first second : List Instruction}

theorem Stuck.append (h : Stuck setting frame first) (second : List Instruction) :
    Stuck setting frame (first ++ second) := by
  intro stack
  obtain ⟨failure, hfailure⟩ := h stack
  exact ⟨failure, by rw [Machine.exec_append, hfailure, error_bind]⟩

theorem Passes.stuck (hfirst : Passes setting frame first after)
    (hsecond : Stuck setting after second) : Stuck setting frame (first ++ second) := by
  intro stack
  rw [Machine.exec_append]
  cases hexec : Machine.exec setting.literals setting.library (.laid frame stack) first with
  | error failure => exact ⟨failure, rfl⟩
  | ok store =>
      obtain ⟨rest, rfl⟩ := hfirst stack _ hexec
      exact hsecond rest

theorem Passes.append {final : Bytes} (hfirst : Passes setting frame first after)
    (hsecond : Passes setting after second final) :
    Passes setting frame (first ++ second) final := by
  intro stack store hexec
  rw [Machine.exec_append] at hexec
  obtain ⟨middle, hmiddle, hexec⟩ := bind_eq_ok.mp hexec
  obtain ⟨rest, rfl⟩ := hfirst stack _ hmiddle
  exact hsecond rest store hexec

-- Only copies write to the frame.
theorem passes_singleton {instruction : Instruction} (h : instruction.op ≠ .copy) :
    Passes setting frame [instruction] frame := by
  intro stack store hexec
  rw [Machine.exec_singleton] at hexec
  obtain ⟨hstore, ⟨-, hsame⟩ | ⟨hcopy, -⟩⟩ :=
    Machine.frame_of_advance (Store.framed_laid frame stack) hexec
  · exact hstore.exists_laid (hsame.trans (Store.frame_laid ..))
  · contradiction

end Codes

def Segment.Fails (setting : Setting) (frame : Bytes) (segment : Segment) : Prop :=
  ∀ placement, Stuck setting frame (segment.code placement)

theorem Segment.fails_of_init {segment : Segment} (h : Stuck setting frame segment.init) :
    segment.Fails setting frame :=
  fun _ => h.append _

-- Code that leaves these bytes on top of the stack and changes the frame.
def Readies (setting : Setting) (frame : Bytes) (code : List Instruction) (width : Nat)
    (value after : Bytes) : Prop :=
  ∃ meaning, Prepares setting code width meaning ∧ meaning frame = .ok (value, after)

-- Code that places these bytes where it is told to.
def Segment.Delivers (setting : Setting) (frame : Bytes) (segment : Segment) (width : Nat)
    (value after : Bytes) : Prop :=
  ∃ meaning, Yields setting segment width meaning ∧ meaning frame = .ok (value, after)

section Deliveries

variable {segment : Segment} {code : List Instruction} {width need : Nat} {value : Bytes}

theorem Segment.Delivers.readies (h : segment.Delivers setting frame width value after) :
    Readies setting frame (segment.code 0) width value after := by
  obtain ⟨meaning, hyields, hmeaning⟩ := h
  exact ⟨meaning, hyields.prepares, hmeaning⟩

theorem Segment.Delivers.length (h : segment.Delivers setting frame width value after)
    (hframe : frame.length = setting.limit) :
    value.length = width ∧ after.length = setting.limit := by
  obtain ⟨meaning, hyields, hmeaning⟩ := h
  exact hyields.bounded.width hframe hmeaning

theorem Segment.Delivers.passes (h : segment.Delivers setting frame width value after)
    (hframe : frame.length = setting.limit) (placement : Int32) :
    Passes setting frame (segment.code placement) after := by
  obtain ⟨meaning, hyields, hmeaning⟩ := h
  intro stack store hexec
  rw [hyields.exec frame stack placement hframe, hmeaning, ok_bind] at hexec
  obtain ⟨hstore, hsame⟩ := Store.keeps_push hexec (Store.framed_laid after stack)
  exact hstore.exists_laid (hsame.trans (Store.frame_laid ..))

theorem Readies.append {second : List Instruction} {more : Nat} {other final : Bytes}
    (h : Readies setting frame code width value after)
    (hsecond : Readies setting after second more other final) :
    Readies setting frame (code ++ second) (width + more) (value ++ other) final := by
  obtain ⟨first, hfirst, hvalue⟩ := h
  obtain ⟨behind, hbehind, hother⟩ := hsecond
  refine ⟨_, hfirst.append hbehind, ?_⟩
  simp only [Meaning.pair, Meaning.andThen, hvalue, hother, ok_bind, Meaning.give]

-- The last instruction takes what the code in front of it has left.
theorem Readies.delivers {instruction : Instruction} {action : Bytes → Meaning}
    {result final : Bytes} (h : Readies setting frame code need value after)
    (hacts : Acts setting instruction need width action)
    (haction : action value after = .ok (result, final)) :
    Segment.Delivers setting frame ⟨code, instruction⟩ width result final := by
  obtain ⟨meaning, hprepares, hmeaning⟩ := h
  refine ⟨_, hprepares.yields hacts, ?_⟩
  rw [Meaning.andThen, hmeaning]
  exact haction

theorem Readies.fails {instruction : Instruction} {action : Bytes → Meaning} {failure : Failure}
    (h : Readies setting frame code need value after) (hframe : frame.length = setting.limit)
    (hacts : Acts setting instruction need width action)
    (haction : action value after = .error failure) :
    Segment.Fails setting frame ⟨code, instruction⟩ := by
  obtain ⟨meaning, hprepares, hmeaning⟩ := h
  intro placement stack
  refine ⟨failure, ?_⟩
  rw [(hprepares.yields hacts).exec frame stack placement hframe]
  simp only [Meaning.andThen, hmeaning, ok_bind, haction, error_bind]

end Deliveries

-- The value of code that runs from a frame.
structure Coded.Gives (setting : Setting) (frame : Bytes) (isOpen : Bool) (coded : Coded)
    (datum : Datum) (after : Bytes) : Prop where
  describes : coded.ty.Describes datum.tree
  decided : datum.tree.isDecided = true
  opens : coded.ty.isOpen = isOpen
  small : coded.ty.extent < 2147483640
  indexable : coded.ty.isTuple = true → coded.ty.Indexable
  delivers : coded.segment.Delivers setting frame coded.ty.extent datum.bytes after

namespace Coded.Gives

variable {isOpen : Bool} {coded : Coded} {datum : Datum}

theorem isWellFormed (h : coded.Gives setting frame isOpen datum after) :
    coded.ty.isWellFormed = true :=
  Ty.isWellFormed_iff.mpr ⟨_, h.describes⟩

theorem length (h : coded.Gives setting frame isOpen datum after)
    (hframe : frame.length = setting.limit) :
    datum.bytes.length = datum.tree.size ∧ after.length = setting.limit := by
  rw [← h.describes.extent_eq]
  exact h.delivers.length hframe

end Coded.Gives

-- The code of an expression realizes its evaluation.
inductive Realizes (setting : Setting) (frame : Bytes) (isOpen : Bool) (coded : Option Coded) :
    Option (Datum × Env) → Prop
  | fails (h : ∀ found, coded = some found → found.segment.Fails setting frame) :
      Realizes setting frame isOpen coded none
  | gives {found : Coded} {datum : Datum} {after : Bytes} {env : Env}
      (hcoded : coded = some found) (hgives : found.Gives setting frame isOpen datum after)
      (hholds : found.scopes.Holds setting.literals after env) :
      Realizes setting frame isOpen coded (some (datum, env))

-- One more sign behind an operand, which may itself stand behind others.
theorem Realizes.bind {start : Bytes} {isOpen opens : Bool} {coded : Option Coded}
    {value : Option (Datum × Env)} {sign : Coded → Option Coded}
    {next : Datum × Env → Option (Datum × Env)} (h : Realizes setting frame isOpen coded value)
    (hfails : ∀ found result, coded = some found → found.segment.Fails setting frame →
      sign found = some result → result.segment.Fails setting start)
    (hgives : ∀ found datum after env, coded = some found → value = some (datum, env) →
      found.Gives setting frame isOpen datum after →
      found.scopes.Holds setting.literals after env →
      Realizes setting start opens (sign found) (next (datum, env))) :
    Realizes setting start opens (coded.bind sign) (value.bind next) := by
  cases h with
  | fails h =>
      refine .fails fun result hresult => ?_
      obtain ⟨found, hfound, hsign⟩ := Option.bind_eq_some_iff.mp hresult
      exact hfails found result hfound (h found hfound) hsign
  | @gives found datum after env hcoded hgiven hholds =>
      subst hcoded
      exact hgives found datum after env rfl rfl hgiven hholds

section Leaves

variable {scopes : Scopes} {env : Env} {position : Position}

theorem realizes_literal (hholds : scopes.Holds setting.literals frame env) (text : String) :
    Realizes setting frame false (Coded.literal? text position scopes)
      ((Datum.literal? text).map (·, env)) := by
  unfold Coded.literal? Datum.literal?
  split
  · cases Decimal.readFloat? text with
    | none => exact .fails (by simp)
    | some bits =>
        refine .gives rfl ⟨Ty.describes_ofPrimitive .f64, rfl, rfl, Ty.small_ofPrimitive .f64,
          by rintro ⟨⟩, ?_⟩ hholds
        exact Readies.delivers ⟨_, prepares_nil, rfl⟩ (acts_float bits) rfl
  · cases Decimal.readInteger? text with
    | none => exact .fails (by simp)
    | some value =>
        simp only [Option.bind_some]
        split
        · rename_i hrange
          refine .gives rfl ⟨Ty.describes_ofPrimitive .i32, rfl, rfl, Ty.small_ofPrimitive .i32,
            by rintro ⟨⟩, ?_⟩ hholds
          refine Readies.delivers ⟨_, prepares_nil, rfl⟩ (acts_int _) ?_
          have hleast : Primitive.i32.least = -2147483648 := by decide
          have hgreatest : Primitive.i32.greatest = 2147483647 := by decide
          have hvalue : (Int64.ofInt value).toInt = value :=
            Int64.toInt_ofInt_of_le (by omega) (by omega)
          rw [hvalue]
          rfl
        · exact .fails (by simp)

theorem delivers_loading {binding : Binding} {datum : Datum}
    (h : binding.Holds setting.literals frame datum) (hframe : frame.length = setting.limit)
    (place : Position) :
    (Operand.loading binding place).Delivers setting frame binding.ty.extent datum.bytes frame := by
  have hwell := Ty.isWellFormed_iff.mpr ⟨_, h.describes⟩
  have hsize : binding.ty.extent < 2147483648 := Nat.lt_trans h.small (by decide)
  refine ⟨_, yields_loading hwell hsize (hframe ▸ h.stored), ?_⟩
  rw [h.fetch]
  rfl

theorem realizes_bare (hframe : frame.length = setting.limit)
    (hholds : scopes.Holds setting.literals frame env) (text : String) (place : Position) :
    Realizes setting frame false ((scopes.lookup text).map fun binding =>
      ⟨binding.ty, Operand.loading binding place, scopes⟩) ((env.lookup text).map (·, env)) := by
  have hlookup := hholds.lookup text
  generalize scopes.lookup text = binding at hlookup ⊢
  generalize env.lookup text = datum at hlookup ⊢
  cases hlookup with
  | none => exact .fails (by simp)
  | @some binding datum hbinding =>
      refine .gives rfl ⟨hbinding.describes, hbinding.decided, ?_, hbinding.small,
        fun _ => hbinding.indexable, delivers_loading hbinding hframe place⟩ hholds
      simp [Ty.isOpen, hbinding.closed]

end Leaves

-- The elements of an open tuple, if all of them are of one type.
theorem toOption_elementsOf {ty : Ty} {elements : List Tree} (h : ty.Describes (.tuple elements))
    (hopen : ty.isOpen = true) (hindexable : ty.Indexable) (position : Position) :
    (Piece.elementsOf ty position).toOption =
      match elements with
      | [] => none
      | first :: rest =>
          if rest.all (· = first) then some (.ofAtoms first.atoms, rest.length + 1) else none := by
  rw [Ty.isOpen] at hopen
  rw [Piece.elementsOf, if_pos hopen, Ty.elements?_tuple h hindexable]
  cases elements with
  | nil => rfl
  | cons first rest =>
      have hsame : ∀ other : Tree,
          (Ty.ofAtoms other.atoms).same (.ofAtoms first.atoms) = decide (other = first) := by
        intro other
        rw [Bool.eq_iff_iff, decide_eq_true_iff]
        exact (Ty.describes_ofAtoms other).same_iff (Ty.describes_ofAtoms first)
      simp only [inRange, ok_bind, List.map_cons]
      cases hfind : (rest.map fun tree => Ty.ofAtoms tree.atoms).zipIdx.find?
        fun entry => !entry.1.same (.ofAtoms first.atoms) with
      | some entry =>
          obtain ⟨tree, htree, heq⟩ := List.mem_map.mp
            (List.fst_mem_of_mem_zipIdx (List.mem_of_find?_eq_some hfind))
          have hother := List.find?_some hfind
          rw [← heq, hsame] at hother
          have hnot : ¬ (rest.all (· = first)) = true := fun hall => by
            simp [of_decide_eq_true (List.all_eq_true.mp hall tree htree)] at hother
          rw [if_neg hnot]
          rfl
      | none =>
          have hall : (rest.all (· = first)) = true := by
            refine List.all_eq_true.mpr fun tree htree => ?_
            obtain ⟨index, hindex⟩ := List.getElem?_of_mem
              (List.mem_map_of_mem (f := fun tree : Tree => Ty.ofAtoms tree.atoms) htree)
            have hnot := List.find?_eq_none.mp hfind (_, index)
              (List.mk_mem_zipIdx_iff_getElem?.mpr hindex)
            simpa [hsame] using hnot
          rw [if_pos hall, toOption_ok, List.length_map]

section Unary

variable {isOpen : Bool} {coded : Coded} {datum : Datum} {env : Env} {position : Position}

theorem Coded.Gives.negate (h : coded.Gives setting frame isOpen datum after)
    (hholds : coded.scopes.Holds setting.literals after env)
    (hframe : frame.length = setting.limit) :
    Realizes setting frame false (coded.negate? position) (datum.negate?.map (·, env)) := by
  have hnumeric := h.describes.numeric?_tree
  have hlength := (h.length hframe).1
  obtain ⟨tree, bytes⟩ := datum
  cases hfound : tree.numeric? with
  | none =>
      have hdatum : Datum.negate? ⟨tree, bytes⟩ = none := by simp [Datum.negate?, hfound]
      rw [hdatum]
      exact .fails (by simp [Coded.negate?, hnumeric, hfound])
  | some primitive =>
      obtain ⟨rfl, hprimitive⟩ := Tree.eq_prim_of_numeric? hfound
      obtain ⟨result, hresult, -⟩ := Arithmetic.negate_numeric hprimitive hlength
      have hcoded : coded.negate? position = some (.made (coded.segment.code 0) .neg coded.ty
          [coded.ty] .none position coded.scopes) := by
        simp [Coded.negate?, hnumeric, hfound]
      have hdatum : Datum.negate? ⟨.prim primitive, bytes⟩ = some ⟨.prim primitive, result⟩ := by
        simp [Datum.negate?, hfound, hresult]
      rw [hdatum]
      refine .gives hcoded ⟨h.describes, h.decided, ?_, h.small, h.indexable, ?_⟩ hholds
      · simp [Coded.made, Ty.isOpen, h.describes.isTuple_eq, Tree.isTuple]
      · refine h.delivers.readies.delivers
          (acts_negate hprimitive h.describes.atoms h.isWellFormed) ?_
        simp only [hresult]
        rfl

theorem Coded.Gives.member (h : coded.Gives setting frame isOpen datum after)
    (hholds : coded.scopes.Holds setting.literals after env) (name : String)
    (hsized : ∀ result, coded.member? name position = some result → result.segment.last.Sized) :
    Realizes setting frame false (coded.member? name position)
      ((datum.member? name).map (·, env)) := by
  have htuple := h.describes.isTuple_eq
  obtain ⟨tree, bytes⟩ := datum
  cases tree with
  | tuple elements =>
      have hindexable := h.indexable htuple
      have hsmall := h.small
      have hsize : coded.ty.extent < 2147483648 := Nat.lt_trans hsmall (by decide)
      have hrow := Tree.rel_named name [] elements
      have hmember : coded.ty.member? name =
          (Tree.rows 1 1 0 elements).find? (·.name = name) := by
        rw [Ty.member?, h.describes.members]
        rfl
      simp only [Coded.member?, htuple, Tree.isTuple, if_true, hmember, Datum.member?] at hsized ⊢
      simp only [List.length_nil, Nat.add_zero, Tree.atomsAll, Tree.sizeAll] at hrow
      generalize (Tree.rows 1 1 0 elements).find? (·.name = name) = row at hrow hsized ⊢
      generalize Tree.named 1 0 elements name = found at hrow ⊢
      cases hrow with
      | none => exact .fails (by simp)
      | @some row found hrow =>
          obtain ⟨front, rest, helements, hoffset, hindex, hword⟩ := hrow
          obtain ⟨offset, inner⟩ := found
          obtain rfl : elements = front ++ inner :: rest := helements
          obtain rfl : offset = Tree.sizeAll front := hoffset
          have hinner : Ty.inner? coded.ty.atoms row.index.toNat = some (.ofAtoms inner.atoms) := by
            rw [hindex, Ty.toNat_index h.describes hindexable]
            exact Ty.inner?_element h.describes
          have hdescribes := Ty.describes_ofAtoms inner
          have hinside : Tree.sizeAll front + inner.size ≤ coded.ty.extent := by
            rw [h.describes.extent_eq]
            simp only [Tree.size, Tree.sizeAll_append, Tree.sizeAll]
            omega
          have hstart : row.offset.toNat = Tree.sizeAll front := by
            have hsize : UInt32.size = 4294967296 := rfl
            rw [hword]
            exact UInt32.toNat_ofNat_of_lt' (by omega)
          have hdecided : inner.isDecided = true := by
            have hall := h.decided
            rw [Tree.isDecided_iff] at hall ⊢
            simp only [Tree.atoms, Tree.atomsAll_append, Tree.atomsAll, List.mem_cons,
              List.mem_append, not_or] at hall
            exact hall.2.1.2.1
          obtain ⟨meaning, hyields, hmeaning⟩ := h.delivers
          simp only [Option.bind_some, hinner, Option.map_some] at hsized ⊢
          have hlast := hsized _ rfl
          refine .gives rfl ⟨hdescribes, hdecided, Bool.and_false _, hlast.result,
            fun _ => hlast.indexable _ (List.mem_cons_self ..), ?_⟩ hholds
          · refine Readies.delivers ⟨_, hyields.prepares.append_spent name position rfl, hmeaning⟩
              (acts_member h.isWellFormed (Ty.isWellFormed_iff.mpr ⟨_, hdescribes⟩) hsize ?_) ?_
            · rw [hstart, hdescribes.extent_eq]
              exact hinside
            · rw [hstart, hdescribes.extent_eq]
              rfl
  | _ =>
      refine .fails fun result hresult => ?_
      simp [Coded.member?, htuple, Tree.isTuple] at hresult

-- The same bytes as an array.
theorem Coded.Gives.regroup (h : coded.Gives setting frame isOpen datum after) {element : Ty}
    {tree : Tree} {count : UInt32} (hty : element.Describes tree) (hdecided : tree.isDecided = true)
    (hsize : (Tree.array tree count).size = datum.tree.size) :
    Coded.Gives setting frame false { coded with ty := .array element count }
      ⟨.array tree count, datum.bytes⟩ after := by
  have harray := Ty.describes_array hty count
  have hextent : (Ty.array element count).extent = coded.ty.extent := by
    rw [harray.extent_eq, hsize, ← h.describes.extent_eq]
  refine ⟨harray, hdecided, Bool.and_false _, hextent ▸ h.small, ?_, ?_⟩
  · simp [harray.isTuple_eq, Tree.isTuple]
  · rw [hextent]
    exact h.delivers

theorem Coded.Gives.array (h : coded.Gives setting frame isOpen datum after)
    (hholds : coded.scopes.Holds setting.literals after env) :
    Realizes setting frame false (coded.array? position)
      ((datum.array? isOpen).map (·, env)) := by
  have hopens := h.opens
  cases isOpen with
  | false =>
      have hfound : Piece.elementsOf coded.ty position = .ok (coded.ty, 1) := by
        rw [Ty.isOpen] at hopens
        rw [Piece.elementsOf, if_neg (by simp [hopens])]
      rw [Coded.array?, hfound]
      exact .gives rfl (h.regroup h.describes h.decided (Nat.mul_one _)) hholds
  | true =>
      have htuple : coded.ty.isTuple = true := (Bool.and_eq_true_iff.mp hopens).1
      have hindexable := h.indexable htuple
      have hsmall := h.small
      obtain ⟨tree, bytes⟩ := datum
      obtain ⟨elements, rfl⟩ := h.describes.eq_tuple htuple
      rw [Coded.array?, toOption_elementsOf h.describes hopens hindexable, Datum.array?, if_pos rfl]
      cases elements with
      | nil => exact .fails (by simp)
      | cons first rest =>
          dsimp only
          split
          · rename_i hsame
            have hrest : first :: rest = List.replicate (rest.length + 1) first := by
              rw [List.replicate_succ, ← List.eq_replicate_of_mem fun other hother =>
                of_decide_eq_true (List.all_eq_true.mp hsame other hother)]
            have hsize : (Tree.tuple (first :: rest)).size < 2147483648 := by
              rw [← h.describes.extent_eq]
              exact Nat.lt_trans hsmall (by decide)
            have hdecided : first.isDecided = true :=
              (Bool.and_eq_true_iff.mp h.decided).1
            refine .gives rfl (h.regroup (Ty.describes_ofAtoms first) hdecided ?_) hholds
            dsimp only
            rw [hrest] at hsize ⊢
            exact Tree.size_array_of_replicate hsize
          · exact .fails (by simp)

-- A frame that is large enough for what the scopes need, or for any scopes at all.
def Setting.Room (setting : Setting) (scopes : Scopes) : Prop :=
  UInt32.size ≤ setting.limit ∨ scopes.frameSize.toNat ≤ setting.limit

-- The value goes to the next slot, above those of all other names, and stays as the result.
theorem Coded.Gives.assign (h : coded.Gives setting frame isOpen datum after)
    (hholds : coded.scopes.Holds setting.literals after env)
    (hframe : frame.length = setting.limit) (hfloored : coded.scopes.Floored) (name : String)
    (place : Position)
    (hsized : ∀ result, coded.assign? name place position = some result →
      result.segment.last.Sized)
    (hroom : ∀ result, coded.assign? name place position = some result →
      setting.Room result.scopes) :
    Realizes setting frame false (coded.assign? name place position)
      ((env.declare name datum).map (datum, ·)) := by
  have hdescribes := h.describes.close
  have hwell : coded.ty.close.isWellFormed = true := Ty.isWellFormed_iff.mpr ⟨_, hdescribes⟩
  have hsize := Ty.size?_eq_extent hwell
  generalize UInt32.ofNat coded.ty.close.extent = size at hsize
  have hdeclare := @Scopes.Holds.declare _ _ _ _
    ⟨coded.ty.close, .stack (coded.scopes.allocate size).1⟩ _ (hholds.allocate size) hdescribes name
    place
  simp only [Coded.assign?, hsize, Option.bind_eq_bind, Option.bind_some] at hsized hroom ⊢
  cases hfound : (coded.scopes.allocate size).2.declare name
      ⟨coded.ty.close, .stack (coded.scopes.allocate size).1⟩ place with
  | error failure =>
      rw [hfound] at hdeclare
      generalize env.declare name datum = behind at hdeclare ⊢
      cases hdeclare
      exact .fails (by simp)
  | ok declared =>
      rw [hfound] at hdeclare
      simp only [hfound, toOption_ok, Option.bind_some] at hsized hroom ⊢
      generalize env.declare name datum = behind at hdeclare ⊢
      cases hdeclare with
      | some hdeclared =>
          have hlast := hsized _ rfl
          have hword : coded.scopes.floor + coded.ty.close.extent < UInt32.size := hlast.frame
          have hinside : coded.scopes.floor + coded.ty.close.extent ≤ setting.limit := by
            rcases hroom _ rfl with hany | hslots
            · exact Nat.le_trans (Nat.le_of_lt hword) hany
            · exact Nat.le_trans (Scopes.allocate_le_frameSize hwell hsize hword hfound) hslots
          obtain ⟨hbytes, hafter⟩ := h.length hframe
          rw [← hdescribes.extent_eq] at hbytes
          have hwrite : coded.scopes.floor + datum.bytes.length ≤ after.length := by
            rw [hbytes, hafter]
            exact hinside
          obtain ⟨meaning, hyields, hmeaning⟩ := h.delivers
          refine .gives rfl ⟨hdescribes, h.decided, Bool.and_false _, hlast.result,
            fun _ => hlast.indexable _ (List.mem_cons_self ..), ?_⟩
            (hdeclared ((hholds.write hfloored hwrite).allocate size) ?_)
          · exact Readies.delivers ⟨_, hyields.prepares.spent_cons name place hsize, hmeaning⟩
              (acts_copy hwell (Nat.lt_trans hlast.result (by decide)) hinside) rfl
          · refine ⟨hdescribes, rfl, h.decided, hlast.indexable _ (List.mem_cons_self ..),
              hlast.result, ?_, ?_⟩
            · rw [Bytes.length_write hwrite, hafter]
              exact hinside
            · have hread := Bytes.slice?_write_self hwrite
              rw [hbytes] at hread
              exact hread

section Operands

variable {coded : Option Coded} {value : Option (Datum × Env)}

theorem Realizes.negate (h : Realizes setting frame isOpen coded value)
    (hframe : frame.length = setting.limit) :
    Realizes setting frame false (coded.bind (Coded.negate? position))
      (value.bind fun found => found.1.negate?.map (·, found.2)) := by
  refine h.bind (fun found result _ hfails hresult => ?_)
    fun found datum after env _ _ hgives hholds => hgives.negate hholds hframe
  simp only [Coded.negate?, Option.ite_none_right_eq_some] at hresult
  obtain ⟨-, hresult⟩ := hresult
  cases hresult
  exact Segment.fails_of_init (hfails 0)

theorem Realizes.member (h : Realizes setting frame isOpen coded value) (name : String)
    (hsized : ∀ result, coded.bind (Coded.member? name position) = some result →
      result.segment.last.Sized) :
    Realizes setting frame false (coded.bind (Coded.member? name position))
      (value.bind fun found => (found.1.member? name).map (·, found.2)) := by
  refine h.bind (fun found result _ hfails hresult => ?_)
    fun found datum after env hfound _ hgives hholds => hgives.member hholds name
      fun result hresult => hsized result (by rw [hfound]; exact hresult)
  obtain ⟨row, -, hresult⟩ := Option.bind_eq_some_iff.mp hresult
  obtain ⟨inner, -, rfl⟩ := Option.map_eq_some_iff.mp hresult
  exact Segment.fails_of_init ((hfails 0).append _)

theorem Realizes.array (h : Realizes setting frame isOpen coded value) :
    Realizes setting frame false (coded.bind (Coded.array? position))
      (value.bind fun found => (found.1.array? isOpen).map (·, found.2)) := by
  refine h.bind (fun found result _ hfails hresult => ?_)
    fun found datum after env _ _ hgives hholds => hgives.array hholds
  obtain ⟨elements, -, rfl⟩ := Option.map_eq_some_iff.mp hresult
  exact hfails

theorem Realizes.assign (h : Realizes setting frame isOpen coded value)
    (hframe : frame.length = setting.limit) (name : String) (place : Position)
    (hfloored : ∀ found, coded = some found → found.scopes.Floored)
    (hsized : ∀ result, coded.bind (Coded.assign? name place position) = some result →
      result.segment.last.Sized)
    (hroom : ∀ result, coded.bind (Coded.assign? name place position) = some result →
      setting.Room result.scopes) :
    Realizes setting frame false (coded.bind (Coded.assign? name place position))
      (value.bind fun found => (found.2.declare name found.1).map (found.1, ·)) := by
  refine h.bind (fun found result _ hfails hresult => ?_)
    fun found datum after env hfound _ hgives hholds =>
      hgives.assign hholds hframe (hfloored found hfound) name place
        (fun result hresult => hsized result (by rw [hfound]; exact hresult))
        fun result hresult => hroom result (by rw [hfound]; exact hresult)
  obtain ⟨size, -, hresult⟩ := Option.bind_eq_some_iff.mp hresult
  obtain ⟨declared, -, heq⟩ := Option.bind_eq_some_iff.mp hresult
  cases heq
  refine Segment.fails_of_init ?_
  exact (passes_singleton (by simp [Piece.spent])).stuck (hfails 0)

theorem Realizes.close (h : Realizes setting frame isOpen coded value) :
    Realizes setting frame false (coded.map Coded.close) value := by
  cases h with
  | fails h =>
      refine .fails fun result hresult => ?_
      obtain ⟨found, hfound, rfl⟩ := Option.map_eq_some_iff.mp hresult
      exact h found hfound
  | @gives found datum after env hcoded hgives hholds =>
      subst hcoded
      refine .gives rfl ⟨hgives.describes.close, hgives.decided, ?_, hgives.small,
        hgives.indexable, ?_⟩ hholds
      · exact Bool.and_false _
      · exact hgives.delivers

-- The names of a block are gone behind it.
theorem Realizes.leave {scopes : Scopes}
    (h : Realizes setting frame isOpen coded value)
    (hscopes : ∀ found, coded = some found → found.scopes.outer = scopes.chain)
    (henv : ∀ datum after, value = some (datum, after) → after.tail = env) :
    Realizes setting frame false (coded.bind Coded.leave?)
      (value.map fun found => (found.1, env)) := by
  cases h with
  | fails h =>
      refine .fails fun result hresult => ?_
      obtain ⟨found, hfound, hleave⟩ := Option.bind_eq_some_iff.mp hresult
      obtain ⟨outer, -, rfl⟩ := Option.map_eq_some_iff.mp hleave
      exact h found hfound
  | @gives found datum after behind hcoded hgives hholds =>
      subst hcoded
      have houter := hscopes found rfl
      have htail := henv datum behind rfl
      obtain ⟨ty, segment, current, outer, frameSize⟩ := found
      obtain rfl : outer = scopes.chain := houter
      cases hholds with
      | cons hlevel hrest =>
          obtain rfl := htail
          refine .gives rfl ⟨hgives.describes.close, hgives.decided, ?_, hgives.small,
            hgives.indexable, ?_⟩ hrest
          · exact Bool.and_false _
          · exact hgives.delivers

end Operands

end Unary

section Binary

variable {leftOpen rightOpen : Bool} {first second : Coded} {left right : Datum} {middle : Bytes}
  {env : Env} {position : Position} {operator : Operator}

theorem Coded.init_sign? {result : Coded}
    (h : Coded.sign? operator position first second = some result) :
    result.segment.init = first.segment.code 0 ++ second.segment.code 0 := by
  have harithmetic : ∀ {op : Op}, Coded.arithmetic? op position first second = some result →
      result.segment.init = first.segment.code 0 ++ second.segment.code 0 := by
    intro op h
    simp only [Coded.arithmetic?] at h
    split at h
    · split at h
      · cases h
        rfl
      · contradiction
    · contradiction
  cases operator with
  | sequence =>
      cases h
      rfl
  | comma =>
      obtain ⟨whole, -, rfl⟩ := Option.map_eq_some_iff.mp h
      rfl
  | plus => exact harithmetic h
  | minus => exact harithmetic h
  | star => exact harithmetic h
  | assign => contradiction
  | call => contradiction

theorem Coded.Gives.arithmetic {op : Op} {operation : Arithmetic.Operation}
    (hop : Arithmetic.Operation.ofOp? op = some operation)
    (hfirst : first.Gives setting frame leftOpen left middle)
    (hsecond : second.Gives setting middle rightOpen right after)
    (hholds : second.scopes.Holds setting.literals after env)
    (hframe : frame.length = setting.limit) :
    Realizes setting frame false (Coded.arithmetic? op position first second)
      ((left.arithmetic? operation right).map (·, env)) := by
  have hnumeric := hfirst.describes.numeric?_tree
  have hsame := hfirst.describes.same_iff hsecond.describes
  obtain ⟨hleft, hmiddle⟩ := hfirst.length hframe
  have hright := (hsecond.length hmiddle).1
  have hready := hfirst.delivers.readies.append hsecond.delivers.readies
  obtain ⟨tree, bytes⟩ := left
  obtain ⟨other, more⟩ := right
  cases hfound : tree.numeric? with
  | none =>
      have hdatum : Datum.arithmetic? operation ⟨tree, bytes⟩ ⟨other, more⟩ = none := by
        simp [Datum.arithmetic?, hfound]
      rw [hdatum]
      exact .fails (by simp [Coded.arithmetic?, hnumeric, hfound])
  | some primitive =>
      obtain ⟨rfl, hprimitive⟩ := Tree.eq_prim_of_numeric? hfound
      by_cases hother : Tree.prim primitive = other
      · subst hother
        obtain ⟨result, hresult, -⟩ := Arithmetic.binary_numeric operation hprimitive hleft hright
        have hdatum : Datum.arithmetic? operation ⟨.prim primitive, bytes⟩ ⟨.prim primitive, more⟩ =
            some ⟨.prim primitive, result⟩ := by
          simp [Datum.arithmetic?, hfound, hresult]
        have hcoded : Coded.arithmetic? op position first second =
            some (.pair op (.ofPrimitive primitive) position first second) := by
          simp [Coded.arithmetic?, hnumeric, hfound, hsame.mpr rfl]
        rw [hdatum]
        refine .gives hcoded ⟨Ty.describes_ofPrimitive primitive, hfirst.decided,
          Bool.and_false _, Ty.small_ofPrimitive primitive, by rintro ⟨⟩, ?_⟩ hholds
        refine hready.delivers (acts_arithmetic hop hprimitive hfirst.describes.atoms
          hsecond.describes.atoms hfirst.isWellFormed hsecond.isWellFormed) ?_
        rw [← hfirst.describes.extent_eq] at hleft
        simp only [List.take_left' hleft, List.drop_left' hleft, hresult]
        rfl
      · have hdatum : Datum.arithmetic? operation ⟨.prim primitive, bytes⟩ ⟨other, more⟩ =
            none := by
          simp [Datum.arithmetic?, hfound, hother]
        have hcoded : Coded.arithmetic? op position first second = none := by
          simp [Coded.arithmetic?, hnumeric, hfound, mt hsame.mp hother]
        rw [hdatum]
        exact .fails (by simp [hcoded])

theorem Coded.Gives.sign (hfirst : first.Gives setting frame leftOpen left middle)
    (hsecond : second.Gives setting middle rightOpen right after)
    (hholds : second.scopes.Holds setting.literals after env)
    (hframe : frame.length = setting.limit)
    (hsized : ∀ result, Coded.sign? operator position first second = some result →
      result.segment.last.Sized) :
    Realizes setting frame (operator.opens rightOpen)
      (Coded.sign? operator position first second)
      ((Datum.sign? operator leftOpen left right).map (·, env)) := by
  obtain ⟨hleft, hmiddle⟩ := hfirst.length hframe
  rw [← hfirst.describes.extent_eq] at hleft
  have hready := hfirst.delivers.readies.append hsecond.delivers.readies
  cases operator with
  | sequence =>
      have hlast := (hsized _ rfl).measured
      refine .gives rfl ⟨hsecond.describes, hsecond.decided, hsecond.opens, hsecond.small,
        hsecond.indexable, ?_⟩ hholds
      refine hready.delivers (acts_sequence hfirst.isWellFormed hsecond.isWellFormed
        (hlast.operands _ (List.mem_cons_self ..))
        (hlast.operands _ (List.mem_cons_of_mem _ (List.mem_cons_self ..)))) ?_
      rw [List.drop_left' hleft]
      rfl
  | comma =>
      obtain ⟨whole, hwhole, hdescribes, hopen⟩ :=
        Ty.append?_describes hfirst.describes hsecond.describes
      rw [hfirst.opens] at hdescribes
      have hcoded : Coded.sign? .comma position first second =
          some (.pair .tuple whole position first second) := by
        simp [Coded.sign?, hwhole]
      have hlast := hsized _ hcoded
      have hwell : whole.isWellFormed = true := Ty.isWellFormed_iff.mpr ⟨_, hdescribes⟩
      have hextent := Ty.extent_append? hfirst.isWellFormed hsecond.isWellFormed hwhole
      have htuple : whole.isTuple = true := by
        rw [hdescribes.isTuple_eq]
        unfold Ty.joined
        split <;> rfl
      refine .gives hcoded ⟨hdescribes, Ty.isDecided_joined hfirst.decided hsecond.decided, ?_,
        hlast.result, fun _ => hlast.indexable _ (List.mem_cons_self ..), ?_⟩ hholds
      · rw [Ty.isOpen]
        simp [Coded.pair, Coded.made, htuple, hopen, Operator.opens]
      · exact hready.delivers
          (acts_tuple hwell (Nat.lt_trans hlast.result (by decide)) hextent) rfl
  | plus => exact hfirst.arithmetic rfl hsecond hholds hframe
  | minus => exact hfirst.arithmetic rfl hsecond hholds hframe
  | star => exact hfirst.arithmetic rfl hsecond hholds hframe
  | assign => exact .fails (by simp [Coded.sign?])
  | call => exact .fails (by simp [Coded.sign?])

-- The second operand runs from the frame that the first one leaves.
theorem Realizes.sign {coded : Option Coded} {value : Option (Datum × Env)}
    {code : Scopes → Option Coded} {eval : Env → Option (Datum × Env)}
    (hleft : Realizes setting frame leftOpen coded value)
    (hright : ∀ first middle env, coded = some first → middle.length = setting.limit →
      first.scopes.Holds setting.literals middle env →
      Realizes setting middle rightOpen (code first.scopes) (eval env))
    (hframe : frame.length = setting.limit)
    (hsized : ∀ result, (coded.bind fun first =>
        (code first.scopes).bind (Coded.sign? operator position first)) = some result →
      result.segment.last.Sized) :
    Realizes setting frame (operator.opens rightOpen)
      (coded.bind fun first => (code first.scopes).bind (Coded.sign? operator position first))
      (value.bind fun first => (eval first.2).bind fun second =>
        (Datum.sign? operator leftOpen first.1 second.1).map (·, second.2)) := by
  refine hleft.bind (fun first result hfirst hfails hresult => ?_)
    fun first datum middle env hfirst _ hgives hholds => ?_
  · obtain ⟨second, -, hsign⟩ := Option.bind_eq_some_iff.mp hresult
    refine Segment.fails_of_init ?_
    rw [Coded.init_sign? hsign]
    exact (hfails 0).append _
  · refine (hright first middle env hfirst (hgives.length hframe).2 hholds).bind
      (fun second result hsecond hfails hsign => ?_)
      fun second other after behind hsecond _ hothers hbehind => ?_
    · refine Segment.fails_of_init ?_
      rw [Coded.init_sign? hsign]
      exact (hgives.delivers.passes hframe 0).stuck (hfails 0)
    · refine hgives.sign hothers hbehind hframe fun result hresult => hsized result ?_
      simp [hfirst, hsecond, hresult]

end Binary

end Analysis

end Sluice
