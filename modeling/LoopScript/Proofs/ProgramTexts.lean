import LoopScript.Program.Json
import LoopScript.Proofs.JsonLayout
import LoopScript.Proofs.Seams

/-! Programs and their JSON texts. The members of an object say which kind of statement or expression it
stands for, and hold its parts: so a program is known from its JSON value, and from its text, as far as
numbers are known from theirs (`Program.eq_of_erase`). Finite numbers are. Those that are not finite are
null, and a program that was parsed has one of them at most, for a literal that is too long: infinity. -/

namespace LoopScript

open Text (Json)
open Text.Json (erase eraseItems eraseMembers stripped)
open Number (Magnitude)

/-! ### The numbers of a program -/

def Expr.numbers : Expr → List Float
  | number value => [value]
  | var _ _ => []
  | negate operand => operand.numbers
  | binary _ left right _ => left.numbers ++ right.numbers

namespace Stmt

mutual

def numbers : Stmt → List Float
  | .loop _ body _ => blockNumbers body
  | .cond condition thenBranch elseBranch =>
      condition.numbers ++ (blockNumbers thenBranch ++ branchNumbers elseBranch)
  | .assign _ value _ => value.numbers
  | .leave _ _ => []
  | .read _ _ => []
  | .print _ _ => []

def blockNumbers : List Stmt → List Float
  | [] => []
  | first :: rest => numbers first ++ blockNumbers rest

def branchNumbers : Option (List Stmt) → List Float
  | none => []
  | some stmts => blockNumbers stmts

end

end Stmt

/-- The numbers in a program, in order. -/
def Program.numbers (program : Program) : List Float := Stmt.blockNumbers program.body

/-- The number that a literal stands for if it is too long. -/
def Number.infinite : Float := ofMagnitude false Magnitude.infinity

/-- A number that can be written as a literal, perhaps with a minus sign: it is finite or infinity. -/
def Number.IsLiteral (value : Float) : Prop := value.isFinite = true ∨ value = infinite

/-- Numbers of this kind are known from their texts. -/
theorem Number.IsLiteral.eq_of_erase {value value' : Float} (h : IsLiteral value) (h' : IsLiteral value')
    (heq : erase (.float value) = erase (.float value')) : value = value' := by
  rcases h with hfinite | rfl
  · rw [erase, if_pos hfinite, erase] at heq
    split at heq
    · exact Json.float.inj heq
    · cases heq
  · have hinfinite : infinite.isFinite = false := by decide +kernel
    rw [erase, hinfinite, erase] at heq
    rcases h' with hfinite' | rfl
    · rw [if_pos hfinite'] at heq
      cases heq
    · rfl

/-! ### Members -/

theorem erase_object {members members' : List (String × Json)} :
    erase (.object members) = erase (.object members') ↔ eraseMembers members = eraseMembers members' := by
  rw [erase, erase, Json.object.injEq]

theorem eraseMembers_cons {key key' : String} {value value' : Json} {rest rest' : List (String × Json)} :
    eraseMembers ((key, value) :: rest) = eraseMembers ((key', value') :: rest') ↔
      key = key' ∧ erase value = erase value' ∧ eraseMembers rest = eraseMembers rest' := by
  rw [eraseMembers, eraseMembers, List.cons.injEq, Prod.mk.injEq, and_assoc]

theorem erase_string {text text' : String} : erase (.string text) = erase (.string text') ↔ text = text' := by
  rw [erase, erase, Json.string.injEq]

/-! ### Places, names and expressions -/

theorem Location.eq_of_erase {place place' : Location}
    (h : Json.erase place.toJson = Json.erase place'.toJson) : place = place' := by
  obtain ⟨line, column, file⟩ := place
  obtain ⟨line', column', file'⟩ := place'
  cases file <;> cases file' <;>
    simp_all [Location.toJson, Json.erase, eraseMembers]

theorem optionalText_eq {text text' : Option String}
    (h : erase (optionalText text) = erase (optionalText text')) : text = text' := by
  cases text <;> cases text' <;> simp_all [optionalText, erase]

theorem namesJson_eq {names names' : List String} (h : erase (namesJson names) = erase (namesJson names')) :
    names = names' := by
  have hkept : ∀ names : List String, eraseItems (names.map Json.string) = names.map Json.string := by
    intro names
    induction names with
    | nil => rfl
    | cons name names ih => rw [List.map_cons, eraseItems, ih, erase]
  simp only [namesJson, erase, hkept, Json.array.injEq] at h
  exact (List.map_injective_iff.mpr fun _ _ => Json.string.inj) h

theorem BinaryOp.jsonName_injective : Function.Injective BinaryOp.jsonName := by
  intro op op' h
  cases op <;> cases op' <;> first | rfl | (simp [jsonName] at h)

/-- An expression is known from its JSON value. -/
theorem Expr.eq_of_erase {e e' : Expr} (hnumbers : ∀ value ∈ e.numbers, Number.IsLiteral value)
    (hnumbers' : ∀ value ∈ e'.numbers, Number.IsLiteral value) (h : erase e.toJson = erase e'.toJson) :
    e = e' := by
  induction e generalizing e' with
  | number value =>
      cases e' with
      | number value' =>
          simp only [toJson, erase_object, eraseMembers_cons] at h
          obtain ⟨-, -, -, hvalue, -⟩ := h
          rw [(hnumbers value List.mem_cons_self).eq_of_erase (hnumbers' value' List.mem_cons_self) hvalue]
      | var | negate | binary => simp [toJson, erase, eraseMembers] at h
  | var name location =>
      cases e' with
      | var name' location' =>
          simp only [toJson, erase_object, eraseMembers_cons, erase_string] at h
          obtain ⟨-, -, -, rfl, -, hlocation, -⟩ := h
          rw [Location.eq_of_erase hlocation]
      | number | negate | binary => simp [toJson, erase, eraseMembers] at h
  | negate operand ih =>
      cases e' with
      | negate operand' =>
          have hoperands : ∀ value ∈ operand'.numbers, Number.IsLiteral value := hnumbers'
          simp only [toJson, erase_object, eraseMembers_cons] at h
          obtain ⟨-, -, -, hoperand, -⟩ := h
          rw [ih hnumbers hoperands hoperand]
      | number | var | binary => simp [toJson, erase, eraseMembers] at h
  | binary op left right location ihleft ihright =>
      cases e' with
      | binary op' left' right' location' =>
          obtain ⟨hleft, hright⟩ := List.forall_mem_append.mp hnumbers
          obtain ⟨hleft', hright'⟩ := List.forall_mem_append.mp hnumbers'
          simp only [toJson, erase_object, eraseMembers_cons, erase_string] at h
          obtain ⟨-, -, -, heqleft, -, hop, -, heqright, -, hlocation, -⟩ := h
          rw [BinaryOp.jsonName_injective hop, ihleft hleft hleft' heqleft, ihright hright hright' heqright,
            Location.eq_of_erase hlocation]
      | number | var | negate => simp [toJson, erase, eraseMembers] at h

/-! ### Statements -/

namespace Stmt

theorem itemsJson_cons (first : Stmt) (rest : List Stmt) :
    itemsJson (first :: rest) = first.toJson :: itemsJson rest := by
  rw [itemsJson]
  rfl

theorem erase_blockJson {items items' : List Json} :
    erase (blockJson items) = erase (blockJson items') ↔ eraseItems items = eraseItems items' := by
  rw [blockJson, blockJson, erase_object, eraseMembers_cons, erase, erase, Json.array.injEq]
  simp

/-- The objects of two statements have the same kinds and the same members if they are the same. -/
theorem erase_toJson {first second : Stmt} (h : erase first.toJson = erase second.toJson) :
    first.members.1 = second.members.1 ∧ eraseMembers first.members.2 = eraseMembers second.members.2 := by
  rw [toJson, toJson, erase_object, eraseMembers_cons, erase_string] at h
  exact h.2

theorem eq_of_erase_names {names names' : List String} {location location' : Location}
    (h : eraseMembers (namesMembers names location) = eraseMembers (namesMembers names' location')) :
    names = names' ∧ location = location' := by
  simp only [namesMembers, eraseMembers_cons] at h
  exact ⟨namesJson_eq h.2.1, Location.eq_of_erase h.2.2.2.1⟩

mutual

/-- A statement is known from its JSON value. -/
theorem eq_of_erase (first second : Stmt) (hfirst : ∀ value ∈ first.numbers, Number.IsLiteral value)
    (hsecond : ∀ value ∈ second.numbers, Number.IsLiteral value)
    (h : erase first.toJson = erase second.toJson) : first = second := by
  obtain ⟨hkind, hmembers⟩ := erase_toJson h
  match first with
  | .loop label body location =>
      cases second with
      | loop label' body' location' =>
          simp only [members, eraseMembers_cons, erase_blockJson] at hmembers
          obtain ⟨-, hlabel, -, hbody, -, hlocation, -⟩ := hmembers
          rw [optionalText_eq hlabel, eq_of_eraseItems body body' hfirst hsecond hbody,
            Location.eq_of_erase hlocation]
      | leave | read | print | cond | assign => simp [members] at hkind
  | .leave target location =>
      cases second with
      | leave target' location' =>
          simp only [members, targetJson, erase_object, eraseMembers_cons] at hmembers
          obtain ⟨-, ⟨-, htarget, -⟩, -, hlocation, -⟩ := hmembers
          rw [optionalText_eq htarget, Location.eq_of_erase hlocation]
      | loop | read | print | cond | assign => simp [members] at hkind
  | .read names location =>
      cases second with
      | read names' location' =>
          obtain ⟨rfl, rfl⟩ := eq_of_erase_names hmembers
          rfl
      | loop | leave | print | cond | assign => simp [members] at hkind
  | .print names location =>
      cases second with
      | print names' location' =>
          obtain ⟨rfl, rfl⟩ := eq_of_erase_names hmembers
          rfl
      | loop | leave | read | cond | assign => simp [members] at hkind
  | .cond condition thenBranch elseBranch =>
      cases second with
      | cond condition' thenBranch' elseBranch' =>
          obtain ⟨hcondition, hbranches⟩ := List.forall_mem_append.mp hfirst
          obtain ⟨hthen, helse⟩ := List.forall_mem_append.mp hbranches
          obtain ⟨hcondition', hbranches'⟩ := List.forall_mem_append.mp hsecond
          obtain ⟨hthen', helse'⟩ := List.forall_mem_append.mp hbranches'
          simp only [members, eraseMembers_cons, erase_blockJson] at hmembers
          obtain ⟨-, heqcondition, -, heqthen, -, heqelse, -⟩ := hmembers
          rw [Expr.eq_of_erase hcondition hcondition' heqcondition,
            eq_of_eraseItems thenBranch thenBranch' hthen hthen' heqthen,
            eq_of_erase_branch elseBranch elseBranch' helse helse' heqelse]
      | loop | leave | read | print | assign => simp [members] at hkind
  | .assign name value location =>
      cases second with
      | assign name' value' location' =>
          simp only [members, eraseMembers_cons, erase_string] at hmembers
          obtain ⟨-, rfl, -, hvalue, -, hlocation, -⟩ := hmembers
          rw [Expr.eq_of_erase hfirst hsecond hvalue, Location.eq_of_erase hlocation]
      | loop | leave | read | print | cond => simp [members] at hkind

theorem eq_of_eraseItems (stmts others : List Stmt)
    (hstmts : ∀ value ∈ blockNumbers stmts, Number.IsLiteral value)
    (hothers : ∀ value ∈ blockNumbers others, Number.IsLiteral value)
    (h : eraseItems (itemsJson stmts) = eraseItems (itemsJson others)) : stmts = others := by
  match stmts, others with
  | [], [] => rfl
  | [], second :: others =>
      rw [itemsJson_cons] at h
      cases h
  | first :: rest, [] =>
      rw [itemsJson_cons] at h
      cases h
  | first :: rest, second :: others =>
      obtain ⟨hfirst, hrest⟩ := List.forall_mem_append.mp hstmts
      obtain ⟨hsecond, hothers⟩ := List.forall_mem_append.mp hothers
      rw [itemsJson_cons, itemsJson_cons, eraseItems, eraseItems] at h
      obtain ⟨hhead, htail⟩ := List.cons.inj h
      rw [eq_of_erase first second hfirst hsecond hhead, eq_of_eraseItems rest others hrest hothers htail]

theorem eq_of_erase_branch (branch other : Option (List Stmt))
    (hbranch : ∀ value ∈ branchNumbers branch, Number.IsLiteral value)
    (hother : ∀ value ∈ branchNumbers other, Number.IsLiteral value)
    (h : erase (branchJson branch) = erase (branchJson other)) : branch = other := by
  match branch, other with
  | none, none => rfl
  | some stmts, some others =>
      rw [branchJson, branchJson, erase_blockJson] at h
      rw [eq_of_eraseItems stmts others hbranch hother h]
  | none, some others => cases h
  | some stmts, none => cases h

end

end Stmt

/-- **A program is known from its compact text**, as far as its numbers are. -/
theorem Program.eq_of_compact {program other : Program}
    (hprogram : ∀ value ∈ program.numbers, Number.IsLiteral value)
    (hother : ∀ value ∈ other.numbers, Number.IsLiteral value)
    (h : program.toJson.compact = other.toJson.compact) : program = other := by
  have herase := Text.Json.compact_inj h
  rw [toJson, toJson, erase_object, eraseMembers_cons, Stmt.listJson, Stmt.listJson,
    Stmt.erase_blockJson] at herase
  have hbody := Stmt.eq_of_eraseItems program.body other.body hprogram hother herase.2.1
  exact congrArg Program.mk hbody

/-! ### The numbers of a parsed program -/

namespace Number

theorem Decimal.toMagnitude_le (decimal : Decimal) : decimal.toMagnitude ≤ Magnitude.infinity := by
  rw [toMagnitude]
  split_ifs
  · exact Nat.zero_le _
  · exact Nat.le_refl _
  · exact Nat.zero_le _
  · rw [Magnitude.ofQuotient]
    split_ifs
    · exact Nat.zero_le _
    · exact Nat.min_le_left _ _

theorem isLiteral_ofMagnitude {bits : ℕ} (h : bits ≤ Magnitude.infinity) :
    IsLiteral (ofMagnitude false bits) := by
  rcases Nat.eq_or_lt_of_le h with rfl | hlt
  · exact .inr rfl
  · have hbound : Magnitude.infinity < 2 ^ 63 := by decide
    have hbits : (UInt64.ofNat bits).toNat = bits := by
      rw [UInt64.toNat_ofNat']
      exact Nat.mod_eq_of_lt ((hlt.trans hbound).trans (by decide))
    have hkept := toBits_ofBits (UInt64.ofNat bits)
    rw [hbits, Nat.mod_eq_of_lt (hlt.trans hbound), if_neg h.not_gt] at hkept
    have hmagnitude : magnitude (ofMagnitude false bits) = bits := by
      have hoff : ofMagnitude false bits = Float.ofBits (UInt64.ofNat bits) := rfl
      rw [magnitude, hoff, hkept, hbits]
      exact Nat.mod_eq_of_lt (hlt.trans hbound)
    refine .inl ?_
    rw [isFinite_iff, hmagnitude]
    exact hlt

end Number

namespace Lexicon

/-- A number in a program text is finite, or infinity if it is too long. -/
theorem Spelling.isLiteral {token : Token} {run : List Char} {value : Float} (h : Spelling token run)
    (hkind : token.kind = .number) (hvalue : Number.Literal.value? token.word = some value) :
    Number.IsLiteral value := by
  obtain ⟨-, hlexical, htext⟩ := h
  have hword : token.word = String.ofList run := by simp [Token.word, htext, tokenOf, hkind]
  rw [hkind] at hlexical
  obtain ⟨decimal, hread⟩ := value?_of_lexical hlexical
  rw [hword, hread] at hvalue
  obtain rfl := Option.some.inj hvalue
  exact Number.isLiteral_ofMagnitude decimal.toMagnitude_le

end Lexicon

namespace Grammar

open Lexicon (Spelling)
open Number (IsLiteral)

theorem Expression.isLiteral {rank : Rank} {ts : List Token} {e : Expr} (h : Expression rank ts e)
    (hspelled : ∀ token ∈ ts, ∃ run, Spelling token run) : ∀ value ∈ e.numbers, IsLiteral value := by
  induction h with
  | number hkind hvalue =>
      obtain ⟨run, hrun⟩ := hspelled _ List.mem_cons_self
      intro value hmem
      obtain rfl := List.mem_singleton.mp hmem
      exact hrun.isLiteral hkind hvalue
  | name => nofun
  | group _ _ _ ih => exact ih fun token hmem => hspelled token (by simp [hmem])
  | unsigned _ ih | operand _ ih => exact ih hspelled
  | negated _ _ ih => exact ih fun token hmem => hspelled token (List.mem_cons_of_mem _ hmem)
  | operation _ _ _ ihleft ihright =>
      refine List.forall_mem_append.mpr
        ⟨ihleft fun token hmem => hspelled token ?_, ihright fun token hmem => hspelled token ?_⟩
      · simp [hmem]
      · simp [hmem]

mutual

/-- The numbers in a statement that was parsed are literals. -/
theorem Statement.isLiteral {ts : List Token} {stmt : Stmt} (h : Statement ts stmt)
    (hspelled : ∀ token ∈ ts, ∃ run, Spelling token run) : ∀ value ∈ stmt.numbers, IsLiteral value := by
  cases h with
  | loop _ _ _ hbody _ =>
      exact hbody.isLiteral fun token hmem => hspelled token (by simp [hmem])
  | cond _ hcondition _ hbranch _ =>
      refine List.forall_mem_append.mpr ⟨?_, List.forall_mem_append.mpr ⟨?_, nofun⟩⟩
      · exact hcondition.isLiteral fun token hmem => hspelled token (by simp [hmem])
      · exact hbranch.isLiteral fun token hmem => hspelled token (by simp [hmem])
  | condElse _ hcondition _ hbranch _ hother _ =>
      refine List.forall_mem_append.mpr ⟨?_, List.forall_mem_append.mpr ⟨?_, ?_⟩⟩
      · exact hcondition.isLiteral fun token hmem => hspelled token (by simp [hmem])
      · exact hbranch.isLiteral fun token hmem => hspelled token (by simp [hmem])
      · exact hother.isLiteral fun token hmem => hspelled token (by simp [hmem])
  | assign _ _ hvalue =>
      exact hvalue.isLiteral fun token hmem => hspelled token (by simp [hmem])
  | leave | leaveNamed | read | print => nofun

theorem Block.isLiteral {ts : List Token} {stmts : List Stmt} (h : Block ts stmts)
    (hspelled : ∀ token ∈ ts, ∃ run, Spelling token run) :
    ∀ value ∈ Stmt.blockNumbers stmts, IsLiteral value := by
  cases h with
  | nil => nofun
  | cons head _ tail =>
      refine List.forall_mem_append.mpr
        ⟨head.isLiteral fun token hmem => hspelled token (List.mem_append_left _ hmem),
          tail.isLiteral fun token hmem => hspelled token ?_⟩
      exact List.mem_append_right _ (List.mem_cons_of_mem _ hmem)

end

end Grammar

/-- A program that was parsed has literals for its numbers. -/
theorem Parser.isLiteral_of_parse {source : String} {log : Log} {program : Program} {state : State}
    (h : parse source log = .ok program state) : ∀ value ∈ program.numbers, Number.IsLiteral value := by
  obtain ⟨ts, hsegments, hbody⟩ := parse_eq_ok_iff_segments.mp ⟨state, h⟩
  exact hbody.isLiteral (Lexicon.spelling_of_segments hsegments)

/-- **The JSON form of a program loses nothing.** Programs whose numbers are finite are the same if their
compact texts are, and so are programs that were parsed, whose numbers need not be finite: a literal that is
too long is infinity, and null in the text. The indented text of any program is its compact text, but for
blanks and newlines outside the strings. -/
theorem json_form_is_faithful :
    (∀ program other : Program, (∀ value ∈ program.numbers, value.isFinite = true) →
      (∀ value ∈ other.numbers, value.isFinite = true) →
      program.toJson.compact = other.toJson.compact → program = other) ∧
    (∀ program : Program, stripped .outside program.toJson.indented.toList = program.toJson.compact.toList) ∧
    ∀ (source source' : String) (log log' : Log) (program other : Program) (state state' : Parser.State),
      Parser.parse source log = .ok program state → Parser.parse source' log' = .ok other state' →
      program.toJson.compact = other.toJson.compact → program = other := by
  refine ⟨fun program other hprogram hother h => ?_, fun program => ?_, ?_⟩
  · exact Program.eq_of_compact (fun value hmem => .inl (hprogram value hmem))
      (fun value hmem => .inl (hother value hmem)) h
  · exact Text.Json.stripped_indented program.toJson
  · intro source source' log log' program other state state' hparse hparse' h
    exact Program.eq_of_compact (Parser.isLiteral_of_parse hparse) (Parser.isLiteral_of_parse hparse') h

def Program.binding (value : Float) : Program := ⟨[.assign "x" (.number value) .unknown]⟩

/-- The two zeros are equal as numbers, but not as bits, and their programs have different texts. -/
theorem json_form_is_faithful_zeros :
    (Program.binding (Number.ofMagnitude false 0)).toJson.compact ≠
      (Program.binding (Number.ofMagnitude true 0)).toJson.compact := by
  have hfinite : ∀ negative, ∀ value ∈ (Program.binding (Number.ofMagnitude negative 0)).numbers,
      value.isFinite = true := by
    intro negative value hmem
    obtain rfl : value = Number.ofMagnitude negative 0 := List.mem_singleton.mp hmem
    cases negative <;> decide +kernel
  intro h
  have hsame := json_form_is_faithful.1 _ _ (hfinite false) (hfinite true) h
  have hbits : (Number.ofMagnitude false 0).toBits ≠ (Number.ofMagnitude true 0).toBits := by decide +kernel
  injection hsame with hbody
  injection hbody with hstmt
  injection hstmt with _ hvalue
  injection hvalue with hnumber
  exact hbits (congrArg Float.toBits hnumber)

end LoopScript
