import Mathlib
import LoopScript.Proofs.Suggestions
import LoopScript.Proofs.TokenOrder

/-! The BREAKs of a program, and the reports of the label check on them. Where a BREAK stands is said by
the path to it, and which loops are around it by their labels; neither mentions the walk of the check.
The check reports the BREAKs that have no loop to leave, one report for each and no others, in the order
of their paths. In the program of a text that is the order of their places. -/

namespace LoopScript.LabelCheck

/-- A BREAK in a list of statements: the path to it, the labels of the loops around it, outermost first,
its target and its place. A path has the index of a statement for each list on the way, and behind the
index of an IF the number of the branch. -/
structure Site where
  path : List Nat
  around : List (Option String)
  target : Option String
  location : Location
deriving DecidableEq

namespace Site

/-- A site seen from outside of a statement or a branch. -/
def below (site : Site) (step : Nat) : Site := { site with path := step :: site.path }

/-- A site seen from outside of a loop. -/
def inLoop (site : Site) (label : Option String) : Site := { site with around := label :: site.around }

/-- A BREAK has no loop to leave: none is around it, or it has a target and none of the loops around it
has that label. -/
def Fails (site : Site) : Prop :=
  site.around = [] ∨ ∃ name, site.target = some name ∧ some name ∉ site.around

instance (site : Site) : Decidable site.Fails :=
  match h : site.target with
  | none => decidable_of_iff (site.around = []) (by simp [Fails, h])
  | some name => decidable_of_iff (site.around = [] ∨ some name ∉ site.around) (by simp [Fails, h])

/-- The report on a BREAK that fails. A name is suggested from among the labels around it, outermost
first. -/
inductive Reported (site : Site) : Diagnostic → Prop
  | outside (hnone : site.around = []) :
      Reported site { kind := .breakOutsideLoop, message := "BREAK used outside of any loop",
                      location := site.location }
  | undefined {name : String} {suggestion : Option String} (hsome : site.around ≠ [])
      (htarget : site.target = some name) (hname : some name ∉ site.around)
      (hsuggestion : Text.Suggests name site.around.reduceOption suggestion) :
      Reported site { kind := .undefinedLabel, message := s!"No enclosing loop is labeled '{name}'",
                      location := site.location, suggestion := suggestion }

end Site

/-- A BREAK occurs in a list of statements. -/
inductive Occurs : List Stmt → Site → Prop
  | here {stmts : List Stmt} {i : Nat} {target : Option String} {location : Location}
      (hstmt : stmts[i]? = some (.leave target location)) : Occurs stmts ⟨[i], [], target, location⟩
  | inLoop {stmts body : List Stmt} {i : Nat} {label : Option String} {location : Location}
      {site : Site} (hstmt : stmts[i]? = some (.loop label body location)) (hbody : Occurs body site) :
      Occurs stmts ((site.inLoop label).below i)
  | inThen {stmts branch : List Stmt} {i : Nat} {condition : Expr} {other : Option (List Stmt)}
      {site : Site} (hstmt : stmts[i]? = some (.cond condition branch other))
      (hbranch : Occurs branch site) : Occurs stmts ((site.below 0).below i)
  | inElse {stmts branch other : List Stmt} {i : Nat} {condition : Expr} {site : Site}
      (hstmt : stmts[i]? = some (.cond condition branch (some other))) (hother : Occurs other site) :
      Occurs stmts ((site.below 1).below i)

mutual

def stmtSites : Stmt → List Site
  | .loop label body _ => (blockSites 0 body).map (·.inLoop label)
  | .leave target location => [⟨[], [], target, location⟩]
  | .cond _ thenBranch elseBranch =>
      (blockSites 0 thenBranch).map (·.below 0) ++ (branchSites elseBranch).map (·.below 1)
  | .read _ _ => []
  | .print _ _ => []
  | .assign _ _ _ => []

/-- The BREAKs of some statements, the first of which has this index. -/
def blockSites (index : Nat) : List Stmt → List Site
  | [] => []
  | stmt :: rest => (stmtSites stmt).map (·.below index) ++ blockSites (index + 1) rest

def branchSites : Option (List Stmt) → List Site
  | none => []
  | some stmts => blockSites 0 stmts

end

/-- The BREAKs of a program, from the left. -/
def sites (program : Program) : List Site := blockSites 0 program.body

/-! ### Each BREAK occurs at one site -/

theorem mem_blockSites {index : Nat} {stmts : List Stmt} {site : Site} :
    site ∈ blockSites index stmts ↔
      ∃ i stmt inner, stmts[i]? = some stmt ∧ inner ∈ stmtSites stmt ∧ site = inner.below (index + i) := by
  induction stmts generalizing index with
  | nil => simp [blockSites]
  | cons first rest ih =>
      rw [blockSites, List.mem_append, List.mem_map, ih]
      constructor
      · rintro (⟨inner, hinner, rfl⟩ | ⟨i, stmt, inner, hstmt, hinner, rfl⟩)
        · exact ⟨0, first, inner, rfl, hinner, rfl⟩
        · refine ⟨i + 1, stmt, inner, hstmt, hinner, ?_⟩
          rw [Nat.add_right_comm, Nat.add_assoc]
      · rintro ⟨i, stmt, inner, hstmt, hinner, rfl⟩
        cases i with
        | zero =>
            obtain rfl := Option.some.inj hstmt
            exact .inl ⟨inner, hinner, rfl⟩
        | succ i =>
            refine .inr ⟨i, stmt, inner, hstmt, hinner, ?_⟩
            rw [Nat.add_right_comm, Nat.add_assoc]

theorem mem_blockSites_of_occurs {stmts : List Stmt} {site : Site} (h : Occurs stmts site) :
    site ∈ blockSites 0 stmts := by
  induction h with
  | here hstmt => exact mem_blockSites.mpr ⟨_, _, _, hstmt, by rw [stmtSites, List.mem_singleton], by
      rw [Nat.zero_add]; rfl⟩
  | inLoop hstmt _ ih =>
      refine mem_blockSites.mpr ⟨_, _, _, hstmt, ?_, by rw [Nat.zero_add]⟩
      rw [stmtSites]
      exact List.mem_map_of_mem ih
  | inThen hstmt _ ih =>
      refine mem_blockSites.mpr ⟨_, _, _, hstmt, ?_, by rw [Nat.zero_add]⟩
      rw [stmtSites]
      exact List.mem_append_left _ (List.mem_map_of_mem ih)
  | inElse hstmt _ ih =>
      refine mem_blockSites.mpr ⟨_, _, _, hstmt, ?_, by rw [Nat.zero_add]⟩
      rw [stmtSites]
      exact List.mem_append_right _ (List.mem_map_of_mem ih)

mutual

theorem occurs_of_mem_stmtSites {stmts : List Stmt} {i : Nat} {site : Site} : (stmt : Stmt) →
    stmts[i]? = some stmt → site ∈ stmtSites stmt → Occurs stmts (site.below i)
  | .loop label body location, hstmt, h => by
      rw [stmtSites, List.mem_map] at h
      obtain ⟨inner, hinner, rfl⟩ := h
      exact .inLoop hstmt (occurs_of_mem_blockSites body (fun j => by rw [Nat.zero_add]) hinner)
  | .leave target location, hstmt, h => by
      rw [stmtSites, List.mem_singleton] at h
      subst h
      exact .here hstmt
  | .cond condition thenBranch elseBranch, hstmt, h => by
      rw [stmtSites, List.mem_append, List.mem_map, List.mem_map] at h
      rcases h with ⟨inner, hinner, rfl⟩ | ⟨inner, hinner, rfl⟩
      · exact .inThen hstmt (occurs_of_mem_blockSites thenBranch (fun j => by rw [Nat.zero_add]) hinner)
      · match elseBranch with
        | none => exact absurd hinner List.not_mem_nil
        | some branch =>
            exact .inElse hstmt (occurs_of_mem_blockSites branch (fun j => by rw [Nat.zero_add]) hinner)
  | .read _ _, _, h => absurd h List.not_mem_nil
  | .print _ _, _, h => absurd h List.not_mem_nil
  | .assign _ _ _, _, h => absurd h List.not_mem_nil

theorem occurs_of_mem_blockSites {stmts : List Stmt} {index : Nat} {site : Site} :
    (part : List Stmt) → (∀ j, part[j]? = stmts[index + j]?) → site ∈ blockSites index part →
    Occurs stmts site
  | [], _, h => absurd h List.not_mem_nil
  | first :: rest, hpart, h => by
      rw [blockSites, List.mem_append, List.mem_map] at h
      rcases h with ⟨inner, hinner, rfl⟩ | h
      · exact occurs_of_mem_stmtSites first (hpart 0).symm hinner
      · refine occurs_of_mem_blockSites rest (fun j => ?_) h
        rw [Nat.add_right_comm, Nat.add_assoc]
        exact hpart (j + 1)

end

theorem mem_sites_iff {program : Program} {site : Site} :
    site ∈ sites program ↔ Occurs program.body site := by
  constructor
  · intro h
    exact occurs_of_mem_blockSites program.body (fun j => by rw [Nat.zero_add]) h
  · intro h
    exact mem_blockSites_of_occurs h

/-! ### Sites from the left -/

theorem below_path_lt {site other : Site} {i j : Nat} :
    (site.below i).path < (other.below j).path ↔ i < j ∨ i = j ∧ site.path < other.path :=
  List.cons_lt_cons_iff

theorem pairwise_below {sites : List Site} (i : Nat)
    (h : sites.Pairwise fun site later => site.path < later.path) :
    (sites.map (·.below i)).Pairwise fun site later => site.path < later.path :=
  List.pairwise_map.mpr (h.imp fun hless => below_path_lt.mpr (.inr ⟨rfl, hless⟩))

mutual

theorem pairwise_stmtSites : (stmt : Stmt) →
    (stmtSites stmt).Pairwise fun site later => site.path < later.path
  | .loop label body _ => by
      rw [stmtSites]
      exact List.pairwise_map.mpr (pairwise_blockSites 0 body)
  | .leave target location => by
      rw [stmtSites]
      exact List.pairwise_singleton _ _
  | .cond _ thenBranch elseBranch => by
      rw [stmtSites]
      refine List.pairwise_append.mpr ⟨pairwise_below 0 (pairwise_blockSites 0 thenBranch), ?_, ?_⟩
      · match elseBranch with
        | none => exact List.Pairwise.nil
        | some branch => exact pairwise_below 1 (pairwise_blockSites 0 branch)
      · intro site hsite later hlater
        obtain ⟨inner, -, rfl⟩ := List.mem_map.mp hsite
        obtain ⟨inner', -, rfl⟩ := List.mem_map.mp hlater
        exact below_path_lt.mpr (.inl Nat.zero_lt_one)
  | .read _ _ => List.Pairwise.nil
  | .print _ _ => List.Pairwise.nil
  | .assign _ _ _ => List.Pairwise.nil

theorem pairwise_blockSites (index : Nat) : (stmts : List Stmt) →
    (blockSites index stmts).Pairwise fun site later => site.path < later.path
  | [] => List.Pairwise.nil
  | first :: rest => by
      rw [blockSites]
      refine List.pairwise_append.mpr
        ⟨pairwise_below index (pairwise_stmtSites first), pairwise_blockSites (index + 1) rest, ?_⟩
      intro site hsite later hlater
      obtain ⟨inner, -, rfl⟩ := List.mem_map.mp hsite
      obtain ⟨i, stmt, inner', -, -, rfl⟩ := mem_blockSites.mp hlater
      exact below_path_lt.mpr (.inl (by omega))

end

/-! ### The reports of the check -/

/-- The report of the check on a BREAK, below the loops of a scope. -/
def Site.report? (scope : Scope) (site : Site) : Option Diagnostic :=
  (breakCause? (site.around.reverse ++ scope) site.target).map (·.reportAt site.location)

theorem report?_inLoop (scope : Scope) (label : Option String) (site : Site) :
    (site.inLoop label).report? scope = site.report? (label :: scope) := by
  simp [Site.report?, Site.inLoop]

theorem filterMap_below (scope : Scope) (sites : List Site) (i : Nat) :
    (sites.map (·.below i)).filterMap (Site.report? scope) = sites.filterMap (Site.report? scope) :=
  List.filterMap_map

mutual

theorem stmtErrors_eq_filterMap (scope : Scope) : (stmt : Stmt) →
    stmtErrors scope stmt = (stmtSites stmt).filterMap (Site.report? scope)
  | .loop label body _ => by
      have hinside : Site.report? scope ∘ (·.inLoop label) = Site.report? (label :: scope) :=
        funext (report?_inLoop scope label)
      rw [stmtErrors, stmtSites, List.filterMap_map, hinside, blockErrors_eq_filterMap _ 0]
  | .leave target location => by
      rw [stmtErrors, stmtSites]
      simp only [List.filterMap_cons, List.filterMap_nil, Site.report?, List.reverse_nil, List.nil_append]
      cases breakCause? scope target <;> rfl
  | .cond _ thenBranch elseBranch => by
      rw [stmtErrors, stmtSites, List.filterMap_append, filterMap_below, filterMap_below,
        blockErrors_eq_filterMap _ 0]
      match elseBranch with
      | none => rfl
      | some branch => rw [branchErrors, branchSites, blockErrors_eq_filterMap _ 0]
  | .read _ _ => rfl
  | .print _ _ => rfl
  | .assign _ _ _ => rfl

theorem blockErrors_eq_filterMap (scope : Scope) (index : Nat) : (stmts : List Stmt) →
    blockErrors scope stmts = (blockSites index stmts).filterMap (Site.report? scope)
  | [] => rfl
  | first :: rest => by
      rw [blockErrors, blockSites, List.filterMap_append, filterMap_below,
        stmtErrors_eq_filterMap scope first, blockErrors_eq_filterMap scope (index + 1) rest]

end

/-- A BREAK that fails is reported, with the name to be suggested for its target. -/
theorem reported_of_fails {site : Site} (h : site.Fails) :
    ∃ report, site.report? [] = some report ∧ site.Reported report := by
  have hnames : Scope.names site.around.reverse = site.around.reduceOption := by
    simp [Scope.names, List.reduceOption]
  rw [Site.report?, List.append_nil]
  cases haround : site.around.reverse with
  | nil => exact ⟨_, rfl, .outside (List.reverse_eq_nil_iff.mp haround)⟩
  | cons innermost outer =>
      have hsome : site.around ≠ [] := by
        intro hnone
        rw [hnone] at haround
        cases haround
      rcases h with hnone | ⟨name, htarget, hname⟩
      · exact absurd hnone hsome
      · have hcontains : (innermost :: outer).contains (some name) = false := by
          rw [← haround, ← Bool.not_eq_true, List.contains_iff_mem, List.mem_reverse]
          exact hname
        rw [htarget, breakCause?, hcontains]
        refine ⟨_, rfl, ?_⟩
        have hreported := Site.Reported.undefined hsome htarget hname (Text.suggests_closest? name _)
        rw [← hnames, haround] at hreported
        exact hreported

theorem report?_of_not_fails {site : Site} (h : ¬ site.Fails) : site.report? [] = none := by
  rw [Site.Fails, not_or] at h
  obtain ⟨hsome, hfound⟩ := h
  rw [Site.report?, List.append_nil]
  cases haround : site.around.reverse with
  | nil => exact absurd (List.reverse_eq_nil_iff.mp haround) hsome
  | cons innermost outer =>
      cases htarget : site.target with
      | none => rfl
      | some name =>
          have hmem : some name ∈ site.around := by
            by_contra hname
            exact hfound ⟨name, htarget, hname⟩
          have hcontains : (innermost :: outer).contains (some name) = true := by
            rw [← haround, List.contains_iff_mem, List.mem_reverse]
            exact hmem
          rw [breakCause?, hcontains]
          rfl

theorem forall₂_filterMap {α β : Type} {R : α → β → Prop} {p : α → Prop} [DecidablePred p]
    {f : α → Option β} (hpos : ∀ a, p a → ∃ b, f a = some b ∧ R a b) (hneg : ∀ a, ¬ p a → f a = none)
    (as : List α) : List.Forall₂ R (as.filter p) (as.filterMap f) := by
  induction as with
  | nil => exact .nil
  | cons a as ih =>
      by_cases ha : p a
      · obtain ⟨b, hb, hab⟩ := hpos a ha
        rw [List.filter_cons_of_pos (by simpa using ha), List.filterMap_cons_some hb]
        exact .cons hab ih
      · rw [List.filter_cons_of_neg (by simpa using ha), List.filterMap_cons_none (hneg a ha)]
        exact ih

theorem errors_eq_filterMap (program : Program) :
    errors program = (sites program).filterMap (Site.report? []) :=
  blockErrors_eq_filterMap [] 0 program.body

/-- The reports are those on the BREAKs that fail, one by one. -/
theorem forall₂_reported (program : Program) :
    List.Forall₂ Site.Reported ((sites program).filter (·.Fails)) (errors program) := by
  rw [errors_eq_filterMap]
  exact forall₂_filterMap (fun _ => reported_of_fails) (fun _ => report?_of_not_fails) _

theorem errors_eq_nil_iff (program : Program) :
    errors program = [] ↔ ∀ site, Occurs program.body site → ¬ site.Fails := by
  rw [errors_eq_filterMap, List.filterMap_eq_nil_iff]
  constructor
  · intro h site hsite hfails
    obtain ⟨report, hreport, -⟩ := reported_of_fails hfails
    rw [h site (mem_sites_iff.mpr hsite)] at hreport
    cases hreport
  · intro h site hsite
    exact report?_of_not_fails (h site (mem_sites_iff.mp hsite))

/-! ### The places of the reports -/

open Grammar (Statement Block)

mutual

/-- The places of the reports on a statement are places of its tokens, in the same order. -/
theorem location_sublist_of_statement {ts : List Token} {stmt : Stmt} (scope : Scope)
    (h : Statement ts stmt) :
    ((stmtErrors scope stmt).map Diagnostic.location).Sublist (ts.map Token.location) := by
  cases h with
  | @loop keyword label colon closing name ts body _ _ _ hbody _ =>
      rw [stmtErrors]
      simp only [List.map_cons, List.map_append]
      apply List.Sublist.cons
      apply List.Sublist.cons
      apply List.Sublist.cons
      exact (location_sublist_of_block (some name :: scope) hbody).trans (List.sublist_append_left _ _)
  | leave =>
      rw [stmtErrors]
      cases breakCause? scope none with
      | none => exact List.nil_sublist _
      | some cause => exact List.Sublist.refl _
  | @leaveNamed _ _ name =>
      rw [stmtErrors]
      cases breakCause? scope (some name) with
      | none => exact List.nil_sublist _
      | some cause => exact (List.nil_sublist _).cons_cons _
  | @cond keyword thenWord closing ts us condition branch _ _ _ hbranch _ =>
      rw [stmtErrors, branchErrors, List.append_nil]
      simp only [List.map_cons, List.map_append]
      apply List.Sublist.cons
      apply List.Sublist.trans _ (List.sublist_append_right _ _)
      apply List.Sublist.cons
      exact (location_sublist_of_block scope hbranch).trans (List.sublist_append_left _ _)
  | @condElse keyword thenWord elseWord closing ts us vs condition branch other _ _ _ hbranch _ hother _ =>
      rw [stmtErrors, branchErrors]
      simp only [List.map_cons, List.map_append]
      apply List.Sublist.cons
      apply List.Sublist.trans _ (List.sublist_append_right _ _)
      apply List.Sublist.cons
      apply (location_sublist_of_block scope hbranch).append
      apply List.Sublist.cons
      exact (location_sublist_of_block scope hother).trans (List.sublist_append_left _ _)
  | read => exact List.nil_sublist _
  | print => exact List.nil_sublist _
  | assign => exact List.nil_sublist _

theorem location_sublist_of_block {ts : List Token} {stmts : List Stmt} (scope : Scope)
    (h : Block ts stmts) :
    ((blockErrors scope stmts).map Diagnostic.location).Sublist (ts.map Token.location) := by
  cases h with
  | nil => exact List.nil_sublist _
  | cons head _ tail =>
      rw [blockErrors]
      simp only [List.map_cons, List.map_append]
      apply (location_sublist_of_statement scope head).append
      apply List.Sublist.cons
      exact location_sublist_of_block scope tail

end

theorem pairwise_before_of_parse {source : String} {log : Log} {program : Program}
    {state : Parser.State} (h : Parser.parse source log = .ok program state) :
    (errors program).Pairwise fun report later => report.location.Before later.location := by
  obtain ⟨ts, hsegments, hbody⟩ := Parser.parse_eq_ok_iff_segments.mp ⟨state, h⟩
  have htokens : ((ts.filter Token.isSignificant).map Token.location).Pairwise Location.Before := by
    apply List.pairwise_map.mpr
    exact hsegments.pairwise_before.filter Token.isSignificant
  exact List.pairwise_map.mp (htokens.sublist (location_sublist_of_block [] hbody))

/-- **Reports on BREAKs.** The BREAKs of a program are listed once each, from the left. The reports of
the check are those on the BREAKs in that list which have no loop to leave, one by one, so that there is
none exactly if each BREAK has a loop to leave. If the program is that of a text, the reports are about
later and later places. -/
theorem failing_breaks_are_reported_in_order (program : Program) :
    (∀ site, site ∈ sites program ↔ Occurs program.body site) ∧
    (sites program).Pairwise (fun site later => site.path < later.path) ∧
    List.Forall₂ Site.Reported ((sites program).filter (·.Fails)) (errors program) ∧
    (errors program = [] ↔ ∀ site, Occurs program.body site → ¬ site.Fails) ∧
    ∀ source log state, Parser.parse source log = .ok program state →
      (errors program).Pairwise fun report later => report.location.Before later.location := by
  refine ⟨fun site => mem_sites_iff, pairwise_blockSites 0 program.body, forall₂_reported program,
    errors_eq_nil_iff program, ?_⟩
  intro source log state hparse
  exact pairwise_before_of_parse hparse

/-- A BREAK without a loop, and one in a loop that misspells its label. -/
def strayBreaks : Program :=
  ⟨[.leave none ⟨1, 1, none⟩, .loop (some "row") [.leave (some "low") ⟨2, 11, none⟩] ⟨2, 1, none⟩]⟩

/-- The program is read from a text of two lines; both BREAKs are reported, the second one with a
suggestion. -/
theorem failing_breaks_are_reported_in_order_stray :
    (∃ state, Parser.parse "BREAK;\nLOOP row: BREAK low; REPEAT;" {} = .ok strayBreaks state) ∧
      errors strayBreaks =
        [{ kind := .breakOutsideLoop, message := "BREAK used outside of any loop",
           location := ⟨1, 1, none⟩ },
         { kind := .undefinedLabel, message := "No enclosing loop is labeled 'low'",
           location := ⟨2, 11, none⟩, suggestion := some "row" }] ∧
      (errors strayBreaks).Pairwise fun report later => report.location.Before later.location := by
  have hparse : ∃ state, Parser.parse "BREAK;\nLOOP row: BREAK low; REPEAT;" {} = .ok strayBreaks state :=
    ⟨⟨⟨[], ⟨2, 29, none⟩, []⟩, {}⟩, by cbv⟩
  obtain ⟨state, hstate⟩ := hparse
  exact ⟨⟨state, hstate⟩, by rfl, (failing_breaks_are_reported_in_order strayBreaks).2.2.2.2 _ _ state hstate⟩

end LoopScript.LabelCheck
