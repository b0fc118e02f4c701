import Mathlib
import Sluice.Proofs.Build

namespace Sluice

section Meets

variable {ε α β : Type}

-- What comes out is good, or else the failure is.
def Meets (good : α → Prop) (bad : ε → Prop) : Except ε α → Prop
  | .ok value => good value
  | .error failure => bad failure

variable {good : α → Prop} {bad : ε → Prop}

theorem Meets.bind {next : β → Prop} {first : Except ε α} {rest : α → Except ε β}
    (hfirst : Meets good bad first) (hrest : ∀ value, good value → Meets next bad (rest value)) :
    Meets next bad (first >>= rest) := by
  cases first with
  | error failure => exact hfirst
  | ok value => exact hrest value hfirst

-- The same where the next step needs to know what came out, not that it was good.
theorem Meets.chain {next : β → Prop} {first : Except ε α} {rest : α → Except ε β}
    (hfirst : Meets good bad first) (hrest : ∀ value, first = .ok value →
      Meets next bad (rest value)) : Meets next bad (first >>= rest) := by
  cases first with
  | error failure => exact hfirst
  | ok value => exact hrest value rfl

end Meets

namespace Failure

-- All places that a failure points at: its own first, then those of its remarks.
def places (failure : Failure) : List Position :=
  failure.position.toList ++ failure.problem.remarks.map Prod.fst

-- A mistake of the program, with a place, and all its places are such as `P` tells.
structure Blames (P : Position → Prop) (failure : Failure) : Prop where
  kind : failure.problem.kind ≠ .defect
  located : failure.position.isSome = true
  places : ∀ position ∈ failure.places, P position

theorem blames_located {P : Position → Prop} {position : Position} {problem : Problem}
    (hkind : problem.kind ≠ .defect) (hremarks : problem.remarks = []) (hposition : P position) :
    (located position problem).Blames P :=
  ⟨hkind, rfl, by simpa [Failure.places, located, hremarks] using hposition⟩

end Failure

namespace Expr

-- All places in an expression.
def places : Expr → List Position
  | .number _ position => [position]
  | .name _ position => [position]
  | .negate operand position => position :: operand.places
  | .binary _ left right position => position :: (left.places ++ right.places)
  | .pipe value callee position => position :: (value.places ++ callee.places)
  | .pipeWith value callee argument position =>
      position :: (value.places ++ callee.places ++ argument.places)
  | .member subject _ position => position :: subject.places
  | .bracketed _ inner opened closed => opened :: closed :: inner.places

section Parser

variable {P : Position → Prop}

theorem places_applied {callee argument : Expr} {position : Position} (hposition : P position)
    (hcallee : ∀ place ∈ callee.places, P place) (hargument : ∀ place ∈ argument.places, P place) :
    ∀ place ∈ (applied callee argument position).places, P place := by
  unfold applied
  split <;> simp_all [places, or_imp, forall_and]

theorem meets_closing {bracket : Bracket} {opened : Position} {lexemes : List Lexeme}
    (hopened : P opened) (hlexemes : ∀ lexeme ∈ lexemes, P lexeme.position) :
    Meets (fun found => P found.1 ∧ ∀ lexeme ∈ found.2.val, P lexeme.position) (Failure.Blames P)
      (closing bracket opened lexemes) := by
  unfold closing
  split
  · exact Failure.blames_located (by rintro ⟨⟩) rfl hopened
  · rename_i lexeme rest
    obtain ⟨hlexeme, hrest⟩ := List.forall_mem_cons.mp hlexemes
    split
    · exact ⟨hlexeme, hrest⟩
    · refine ⟨by rintro ⟨⟩, rfl, ?_⟩
      simpa [Failure.places, Failure.located, Problem.remarks] using ⟨hlexeme, hopened⟩

theorem subset_of_memberName? {lexemes : List Lexeme} {field : String}
    {rest : { rest : List Lexeme // rest.length < lexemes.length }}
    (h : memberName? lexemes = some (field, rest)) : rest.val ⊆ lexemes := by
  unfold memberName? at h
  split at h
  · split at h
    · cases h
      exact List.subset_cons_self _ _
    · contradiction
  · contradiction

-- What is left over is again all in known places.
def Settled (P : Position → Prop) (expr : Expr) (rest : List Lexeme) : Prop :=
  (∀ place ∈ expr.places, P place) ∧ ∀ lexeme ∈ rest, P lexeme.position

mutual

theorem meets_parseOperand {last : Position} (hlast : P last) (lexemes : List Lexeme)
    (hlexemes : ∀ lexeme ∈ lexemes, P lexeme.position) :
    Meets (fun parsed => Settled P parsed.expr parsed.rest) (Failure.Blames P)
      (parseOperand last lexemes) := by
  match lexemes with
  | [] =>
      rw [parseOperand]
      exact Failure.blames_located nofun rfl hlast
  | ⟨word, place⟩ :: rest =>
      obtain ⟨hplace, hrest⟩ := List.forall_mem_cons.mp hlexemes
      rw [parseOperand]
      match word with
      | .number text => exact ⟨by simpa [places] using hplace, hrest⟩
      | .name text => exact ⟨by simpa [places] using hplace, hrest⟩
      | .mark .minus =>
          refine (meets_parseExpr hlast negatePower rest hrest).bind fun parsed hparsed => ?_
          exact ⟨List.forall_mem_cons.mpr ⟨hplace, hparsed.1⟩, hparsed.2⟩
      | .mark (.opening bracket) =>
          refine (meets_parseExpr hlast 0 rest hrest).bind fun parsed hparsed => ?_
          refine (meets_closing hplace hparsed.2).bind fun found hfound => ?_
          exact ⟨List.forall_mem_cons.mpr ⟨hplace, List.forall_mem_cons.mpr ⟨hfound.1, hparsed.1⟩⟩,
            hfound.2⟩
      | .mark .assign | .mark .pipe | .mark .plus | .mark .star | .mark .comma | .mark .dot
      | .mark .semicolon | .mark (.closing _) => exact Failure.blames_located nofun rfl hplace
termination_by 2 * lexemes.length

theorem meets_parseExpr {last : Position} (hlast : P last) (least : Nat) (lexemes : List Lexeme)
    (hlexemes : ∀ lexeme ∈ lexemes, P lexeme.position) :
    Meets (fun parsed => Settled P parsed.expr parsed.rest) (Failure.Blames P)
      (parseExpr last least lexemes) := by
  rw [parseExpr]
  refine (meets_parseOperand hlast lexemes hlexemes).bind fun operand hoperand => ?_
  obtain ⟨operand, behind, hbehind⟩ := operand
  refine (meets_extend hlast least behind hoperand).bind fun whole hwhole => ?_
  exact hwhole
termination_by 2 * lexemes.length + 1
decreasing_by all_goals omega

theorem meets_extend {last : Position} (hlast : P last) (least : Nat) {left : Expr}
    (lexemes : List Lexeme) (hleft : Settled P left lexemes) :
    Meets (fun whole => Settled P whole.expr whole.rest) (Failure.Blames P)
      (extend last least left lexemes) := by
  match lexemes with
  | [] =>
      rw [extend]
      exact hleft
  | ⟨word, place⟩ :: rest =>
      obtain ⟨hleft, hlexemes⟩ := hleft
      obtain ⟨hplace, hrest⟩ := List.forall_mem_cons.mp hlexemes
      rw [extend]
      split
      · exact ⟨hleft, hlexemes⟩
      · rename_i link hlink
        split
        · exact ⟨hleft, hlexemes⟩
        · match link with
          | .sign .call =>
              refine (meets_parseExpr hlast _ _ hlexemes).bind fun argument hargument => ?_
              obtain ⟨argument, behind, hbehind⟩ := argument
              have hshorter : behind.length ≤ rest.length := Nat.le_of_lt_succ hbehind
              refine (meets_extend hlast least behind ?_).bind fun whole hwhole => hwhole
              exact ⟨places_applied hplace hleft hargument.1, hargument.2⟩
          | .sign .sequence | .sign .assign | .sign .comma | .sign .plus | .sign .minus
          | .sign .star | .pipe =>
              refine (meets_parseExpr hlast _ _ hrest).bind fun right hright => ?_
              obtain ⟨right, behind, hbehind⟩ := right
              refine (meets_extend hlast least behind ?_).bind fun whole hwhole => hwhole
              exact ⟨List.forall_mem_cons.mpr ⟨hplace, List.forall_mem_append.mpr
                ⟨hleft, hright.1⟩⟩, hright.2⟩
          | .dot =>
              dsimp only
              split
              · rename_i field behind hbehind hfield
                refine (meets_extend hlast least behind ?_).bind fun whole hwhole => hwhole
                exact ⟨List.forall_mem_cons.mpr ⟨hplace, hleft⟩, fun lexeme hlexeme =>
                  hrest lexeme (subset_of_memberName? hfield hlexeme)⟩
              · refine (meets_parseExpr hlast _ _ hrest).bind fun right hright => ?_
                obtain ⟨right, behind, hbehind⟩ := right
                refine (meets_extend hlast least behind ?_).bind fun whole hwhole => hwhole
                exact ⟨List.forall_mem_cons.mpr ⟨hplace, List.forall_mem_append.mpr
                  ⟨hleft, hright.1⟩⟩, hright.2⟩
termination_by 2 * lexemes.length + 2
decreasing_by all_goals simp only [List.length_cons] at *; omega

end

-- A text is rejected for one of its lexemes, or because there is none.
theorem meets_parse {lexemes : List Lexeme} (hstart : P .start)
    (hlexemes : ∀ lexeme ∈ lexemes, P lexeme.position) :
    Meets (fun expr => ∀ place ∈ expr.places, P place) (Failure.Blames P) (parse lexemes) := by
  unfold parse
  split
  · exact Failure.blames_located nofun rfl hstart
  · rename_i last hlast
    have hend := hlexemes last (List.mem_of_getLast? hlast)
    refine (meets_parseExpr hend 0 lexemes hlexemes).bind fun whole hwhole => ?_
    obtain ⟨hplaces, hrest⟩ := hwhole
    split
    · exact hplaces
    · rename_i lexeme rest heq
      rw [heq] at hrest
      exact Failure.blames_located nofun rfl (hrest lexeme (List.mem_cons_self ..))

end Parser

end Expr

-- A place whose line begins and ends in the source.
structure Position.Within (source : Bytes) (position : Position) : Prop where
  column : 1 ≤ position.column.toNat
  line : position.column.toNat ≤ position.offset.toNat + 1
  offset : position.offset.toNat ≤ source.length

theorem Source.isSome_lineAt? {source : Bytes} {position : Position}
    (h : position.Within source) : (Source.lineAt? source position).isSome = true := by
  obtain ⟨hcolumn, hline, hoffset⟩ := h
  have hinside : ¬ (position.column.toNat = 0 ∨ position.offset.toNat + 1 < position.column.toNat ∨
      source.length < position.offset.toNat) := by omega
  rw [Source.lineAt?, if_neg hinside]
  rfl

theorem Position.within_start (source : Bytes) : Position.start.Within source :=
  ⟨by decide, by decide, Nat.zero_le _⟩

-- The cursor stands behind what was read. Only at the very end, where no lexeme begins, a column may
-- be too large for a word.
structure Cursor.Along (source : Bytes) (cursor : Cursor) : Prop where
  within : cursor.rest ≠ [] → cursor.position.Within source
  rest : cursor.position.offset.toNat + cursor.rest.length = source.length

namespace Cursor

variable {source : Bytes} {cursor : Cursor}

theorem along_ofBytes (source : Bytes) : (ofBytes source).Along source :=
  ⟨fun _ => Position.within_start source, Nat.zero_add _⟩

theorem Along.advance (hsource : source.length < 2 ^ 32) (h : cursor.Along source) :
    cursor.advance.Along source := by
  obtain ⟨rest, position⟩ := cursor
  cases rest with
  | nil => exact h
  | cons byte rest =>
      obtain ⟨hwithin, hrest⟩ := h
      obtain ⟨hcolumn, hline, hoffset⟩ := hwithin (List.cons_ne_nil byte rest)
      simp only [List.length_cons] at hcolumn hline hoffset hrest
      have hnext : (position.offset + 1).toNat = position.offset.toNat + 1 := by
        rw [UInt32.toNat_add]
        exact Nat.mod_eq_of_lt (by simp; omega)
      simp only [Cursor.advance]
      split
      · refine ⟨fun _ => ⟨Nat.le_refl 1, ?_, ?_⟩, ?_⟩ <;> simp only [Position.nextLine, hnext]
        · simp
        · omega
        · omega
      · refine ⟨fun hmore => ?_, ?_⟩
        · have hlength : 0 < rest.length := List.length_pos_iff.mpr hmore
          have hright : (position.column + 1).toNat = position.column.toNat + 1 := by
            rw [UInt32.toNat_add]
            exact Nat.mod_eq_of_lt (by simp; omega)
          refine ⟨?_, ?_, ?_⟩ <;> simp only [Position.nextColumn, hnext, hright] <;> omega
        · simp only [Position.nextColumn, hnext]
          omega

theorem Along.advanceBy (hsource : source.length < 2 ^ 32) (count : Nat) {cursor : Cursor}
    (h : cursor.Along source) : (cursor.advanceBy count).Along source := by
  induction count generalizing cursor with
  | zero => exact h
  | succ count ih => exact ih (h.advance hsource)

end Cursor

theorem Lexeme.meets_scanFrom {source : Bytes} (hsource : source.length < 2 ^ 32)
    (cursor : Cursor) (h : cursor.Along source) :
    Meets (fun lexemes => ∀ lexeme ∈ lexemes, lexeme.position.Within source)
      (Failure.Blames (Position.Within source)) (scanFrom cursor) := by
  match cursor with
  | ⟨[], position⟩ =>
      rw [scanFrom]
      exact List.forall_mem_nil _
  | ⟨first :: rest, position⟩ =>
      rw [scanFrom]
      split
      · exact Failure.blames_located (by rintro ⟨⟩) rfl (h.within (List.cons_ne_nil _ _))
      · rename_i word more hword
        have hrest := meets_scanFrom hsource
          (skipLayout (Cursor.advanceBy ⟨first :: rest, position⟩ (more + 1)))
          ((h.advanceBy hsource _).advanceBy hsource _)
        split
        · rename_i failure hscan
          rwa [hscan] at hrest
        · rename_i lexemes hscan
          rw [hscan] at hrest
          exact List.forall_mem_cons.mpr ⟨h.within (List.cons_ne_nil _ _), hrest⟩
termination_by cursor.rest.length
decreasing_by
  simp only [skipLayout, Cursor.rest_advanceBy, List.length_drop, List.length_cons]
  omega

-- All places of the expression of a source, and those of a failure to read it, lie in the source.
theorem Source.meets_expr {source : Bytes} (hsource : source.length < 2 ^ 32) :
    Meets (fun read => ∀ place ∈ read.1.places, place.Within source)
      (Failure.Blames (Position.Within source)) (Source.expr source) := by
  have hscan := Lexeme.meets_scanFrom hsource _
    ((Cursor.along_ofBytes source).advanceBy hsource (Lexeme.layoutLength false source))
  refine Meets.bind hscan fun lexemes hlexemes => ?_
  refine (Expr.meets_parse (Position.within_start source) hlexemes).bind fun expr hexpr => ?_
  exact hexpr

end Sluice
