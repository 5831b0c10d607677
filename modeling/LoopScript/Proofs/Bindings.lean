import Mathlib
import LoopScript.Proofs.Suggestions
import LoopScript.Proofs.TypedLines
import LoopScript.SymbolTable

/-! Tables by the bindings that were made. Which names a table has depends on the names that were bound and
on nothing else: not on their numbers, on the order of the bindings or on how often a name was bound. So
does the report for a name that is not bound, with the name it suggests.

Names are ordered by code points. That is the order of their bytes: UTF-8 keeps the order of characters,
and no character begins with the bytes of another one. -/

namespace LoopScript

namespace NumberInput

/-! ### The order of bytes -/

theorem utf8EncodeChar_append_lt {c d : Char} (h : c < d) (first second : List UInt8) :
    String.utf8EncodeChar c ++ first < String.utf8EncodeChar d ++ second := by
  have hcode : c.val.toNat < d.val.toNat := h
  have hlast : d.val.toNat < 0x110000 := by
    rcases d.valid with hlow | hhigh
    · exact Nat.lt_trans hlow (by decide)
    · exact hhigh.2
  have hthird : ∀ n : Nat, n / 4096 = n / 64 / 64 := fun n => by omega
  have hfourth : ∀ n : Nat, n / 262144 = n / 64 / 64 / 64 := fun n => by omega
  unfold String.utf8EncodeChar
  dsimp only
  -- one case for each number of bytes of the one and of the other character
  split_ifs <;>
    simp only [List.cons_append, List.nil_append, List.cons_lt_cons_iff, UInt8.lt_iff_toNat_lt,
      ← UInt8.toNat_inj, UInt8.toNat_ofNat', hthird, hfourth] <;>
    omega

theorem flatMap_utf8EncodeChar_lt {first second : List Char} (h : first < second) :
    first.flatMap String.utf8EncodeChar < second.flatMap String.utf8EncodeChar := by
  induction first generalizing second with
  | nil =>
      cases second with
      | nil => exact absurd h (List.lt_irrefl [])
      | cons d second =>
          have hbytes : 0 < (String.utf8EncodeChar d).length := by
            rw [String.length_utf8EncodeChar]
            exact d.utf8Size_pos
          obtain ⟨byte, bytes, hcons⟩ := List.exists_cons_of_length_pos hbytes
          rw [List.flatMap_cons, hcons]
          exact List.nil_lt_cons byte _
  | cons c first ih =>
      cases second with
      | nil => exact absurd h (List.not_lt_nil _)
      | cons d second =>
          rw [List.flatMap_cons, List.flatMap_cons]
          rcases List.cons_lt_cons_iff.mp h with hlt | ⟨rfl, hrest⟩
          · exact utf8EncodeChar_append_lt hlt _ _
          · exact List.append_left_lt (ih hrest)

theorem encode_lt_encode {first second : String} (h : first < second) : encode first < encode second :=
  flatMap_utf8EncodeChar_lt (String.lt_iff_toList_lt.mp h)

/-- Texts are ordered as their bytes. -/
theorem encode_le_encode_iff {first second : String} : encode first ≤ encode second ↔ first ≤ second := by
  constructor
  · intro h
    by_contra hnot
    exact h (encode_lt_encode (String.not_le.mp hnot))
  · intro h
    rcases Std.lt_trichotomy first second with hlt | rfl | hgt
    · exact List.le_of_lt (encode_lt_encode hlt)
    · exact List.le_refl _
    · exact absurd hgt (String.not_lt.mpr h)

end NumberInput

open NumberInput (encode)
open Text (editDistance closest?)
open Diagnostic (Cause)

/-! ### Suggestions from a list in order -/

/-- Of some names, the one that is suggested for a name that is not among them: there are at most two edits
between the two names, no other name is nearer, and none that is as near comes first by its bytes. -/
structure IsMeant (target : String) (names : List String) (close : String) : Prop where
  mem : close ∈ names
  near : editDistance target close ≤ 2
  nearest : ∀ other ∈ names, editDistance target close ≤ editDistance target other
  first : ∀ other ∈ names, editDistance target other = editDistance target close →
    encode close ≤ encode other

theorem IsMeant.congr {target close : String} {names names' : List String} (h : IsMeant target names close)
    (hmem : ∀ name, name ∈ names ↔ name ∈ names') : IsMeant target names' close where
  mem := (hmem close).mp h.mem
  near := h.near
  nearest other hother := h.nearest other ((hmem other).mpr hother)
  first other hother := h.first other ((hmem other).mpr hother)

theorem isMeant_or_none {target : String} {names : List String} (hsorted : names.Pairwise (· < ·))
    (htarget : target ∉ names) :
    (∃ close, IsMeant target names close ∧ closest? target names = some close) ∨
      (∀ other ∈ names, 2 < editDistance target other) ∧ closest? target names = none := by
  have hfar : ∀ other ∈ names, ¬ Text.Near target other → 2 < editDistance target other := by
    intro other hother hnear
    refine Nat.lt_of_not_le fun hle => hnear ⟨hle, ?_⟩
    rintro rfl
    exact htarget hother
  have hsuggests := Text.suggests_closest? target names
  generalize closest? target names = found at hsuggests ⊢
  cases hsuggests with
  | nothing hnone => exact .inr ⟨fun other hother => hfar other hother (hnone other hother), rfl⟩
  | @first before after close hsplit hnear hbefore hafter =>
      have hcases : ∀ other ∈ names, other ∈ before ∨ other = close ∨ other ∈ after := by
        intro other hother
        rw [hsplit] at hother
        simpa using hother
      refine .inl ⟨close, ⟨by simp [hsplit], hnear.1, fun other hother => ?_,
        fun other hother hsame => ?_⟩, rfl⟩
      · by_cases hother' : Text.Near target other
        · rcases hcases other hother with hmem | rfl | hmem
          · exact (hbefore other hmem hother').le
          · exact le_rfl
          · exact hafter other hmem hother'
        · exact hnear.1.trans (hfar other hother hother').le
      · have hother' : Text.Near target other := by
          refine ⟨hsame.trans_le hnear.1, ?_⟩
          rintro rfl
          exact htarget hother
        rcases hcases other hother with hmem | rfl | hmem
        · exact absurd hsame (hbefore other hmem hother').ne'
        · exact List.le_refl _
        · rw [hsplit, List.pairwise_append, List.pairwise_cons] at hsorted
          exact NumberInput.encode_le_encode_iff.mpr (hsorted.2.1.1 other hmem).le

namespace SymbolTable

/-! ### The names of a table -/

theorem names_pairwise (table : SymbolTable) : table.names.Pairwise (· < ·) :=
  List.pairwise_map.mpr table.sorted

theorem names_nodup (table : SymbolTable) : table.names.Nodup :=
  table.names_pairwise.imp fun hlt => hlt.ne

theorem not_mem_names_iff {table : SymbolTable} {name : String} :
    name ∉ table.names ↔ table.get? name = none := by
  rw [get?, List.lookup_eq_none_iff, names]
  simp only [List.mem_map, not_exists, not_and, bne_iff_ne]
  exact ⟨fun h entry hentry hname => h entry hentry hname.symm,
    fun h entry hentry hname => h entry hentry hname.symm⟩

theorem mem_names_set {table : SymbolTable} {name other : String} {value : Float} :
    other ∈ (table.set name value).names ↔ other = name ∨ other ∈ table.names := by
  rw [← not_iff_not, not_or, not_mem_names_iff, not_mem_names_iff]
  by_cases hname : other = name
  · subst hname
    simp
  · simp [hname, get?_set_of_ne table value hname]

/-- In whatever order the names of a table are listed, sorting the list by their bytes gives the names in
the order in which the table has them. -/
theorem mergeSort_eq_names {table : SymbolTable} {listing : List String} (hnodup : listing.Nodup)
    (hmem : ∀ name, name ∈ listing ↔ name ∈ table.names) :
    listing.mergeSort (fun name other => encode name ≤ encode other) = table.names := by
  have hperm : listing.Perm table.names := (List.perm_ext_iff_of_nodup hnodup table.names_nodup).mpr hmem
  have hsorted : (listing.mergeSort (fun name other => encode name ≤ encode other)).Pairwise (· ≤ ·) := by
    have hbytes : (listing.mergeSort (fun name other => encode name ≤ encode other)).Pairwise
        (fun name other => decide (encode name ≤ encode other) = true) :=
      List.pairwise_mergeSort (fun a b c hab hbc => ?_) (fun a b => ?_) listing
    · exact hbytes.imp fun h => NumberInput.encode_le_encode_iff.mp (of_decide_eq_true h)
    · exact decide_eq_true (List.le_trans (of_decide_eq_true hab) (of_decide_eq_true hbc))
    · simpa using List.le_total (encode a) (encode b)
  refine ((List.mergeSort_perm _ _).trans hperm).eq_of_pairwise (fun _ _ _ _ => le_antisymm) hsorted ?_
  exact table.names_pairwise.imp fun h => h.le

/-! ### Histories -/

theorem sorted_nil :
    ([] : List (String × Float)).Pairwise (fun first second => first.1 < second.1) := .nil

def bindAll (history : List (String × Float)) : SymbolTable :=
  history.foldl (fun table binding => table.set binding.1 binding.2) ⟨[], sorted_nil⟩

theorem bindAll_concat (history : List (String × Float)) (name : String) (value : Float) :
    bindAll (history ++ [(name, value)]) = (bindAll history).set name value := by
  rw [bindAll, List.foldl_append]
  rfl

theorem mem_names_bindAll {history : List (String × Float)} {name : String} :
    name ∈ (bindAll history).names ↔ name ∈ history.map (·.1) := by
  induction history using List.reverseRecOn with
  | nil => rfl
  | append_singleton history binding ih =>
      rw [bindAll_concat, mem_names_set, ih]
      simp [or_comm]

/-- A name has the number that it was bound to last. -/
theorem get?_bindAll (before : List (String × Float)) (name : String) (value : Float)
    {after : List (String × Float)} (hafter : name ∉ after.map (·.1)) :
    (bindAll (before ++ (name, value) :: after)).get? name = some value := by
  induction after using List.reverseRecOn with
  | nil => rw [bindAll_concat, get?_set_self]
  | append_singleton after binding ih =>
      simp only [List.map_append, List.mem_append, List.map_cons, List.map_nil, List.mem_singleton,
        not_or] at hafter
      rw [← List.cons_append, ← List.append_assoc, bindAll_concat, get?_set_of_ne _ _ hafter.2]
      exact ih hafter.1

theorem lookup_of_get? {table : SymbolTable} {name : String} {value : Float}
    (h : table.get? name = some value) (location : Location) : table.lookup name location = .ok value := by
  rw [lookup, h]

theorem lookup_of_not_mem {table : SymbolTable} {name : String} (h : name ∉ table.names)
    (location : Location) :
    table.lookup name location = .error ((Cause.unboundIdentifier name table.names).reportAt location) := by
  rw [lookup, not_mem_names_iff.mp h]

/-- What is reported for a name that is not among those bound. However these are listed, it is the report
that is made from the list once it is sorted by bytes. The name that is meant is suggested, if there is
one, and otherwise there is a hint. -/
structure ReportsUnbound (bound : List String) (name : String) (location : Location) (report : Diagnostic) :
    Prop where
  kind_eq : report.kind = .unboundIdentifier
  message_eq : report.message = s!"Identifier '{name}' is not bound"
  location_eq : report.location = location
  listing (names : List String) (hnodup : names.Nodup) (hmem : ∀ other, other ∈ names ↔ other ∈ bound) :
    report = (Cause.unboundIdentifier name
      (names.mergeSort fun name other => encode name ≤ encode other)).reportAt location
  meant : (∃ close, IsMeant name bound close ∧ report.suggestion = some close ∧ report.help = none) ∨
    (∀ other ∈ bound, 2 < editDistance name other) ∧ report.suggestion = none ∧
      report.help = some "assign it or READ it before use"

theorem reportsUnbound {bound : List String} {table : SymbolTable} {name : String}
    (hbound : ∀ other, other ∈ table.names ↔ other ∈ bound) (hname : name ∉ table.names)
    (location : Location) :
    ReportsUnbound bound name location ((Cause.unboundIdentifier name table.names).reportAt location) where
  kind_eq := rfl
  message_eq := rfl
  location_eq := rfl
  listing names hnodup hmem := by
    rw [mergeSort_eq_names hnodup fun other => (hmem other).trans (hbound other).symm]
  meant := by
    rcases isMeant_or_none table.names_pairwise hname with ⟨close, hmeant, hclose⟩ | ⟨hfar, hnone⟩
    · refine .inl ⟨close, hmeant.congr hbound, hclose, ?_⟩
      simp only [Cause.reportAt, Cause.help, hclose]
    · refine .inr ⟨fun other hother => hfar other ((hbound other).mpr hother), hnone, ?_⟩
      simp only [Cause.reportAt, Cause.help, hnone]

/-- Tables with the same names list them alike. -/
theorem names_eq_of_mem_iff {table table' : SymbolTable}
    (h : ∀ name, name ∈ table.names ↔ name ∈ table'.names) : table.names = table'.names := by
  rw [← mergeSort_eq_names table.names_nodup fun _ => Iff.rfl, mergeSort_eq_names table.names_nodup h]

/-- **Only the set of bound names shows in a report.** Two histories that bind the same names lead to the
same report for any other name: it suggests the nearest of the bound names that are within two edits, the
first one by its bytes if several are as near, and without one it has a hint. A bound name has the number
it was bound to last, and a table lists each bound name once, in the order of bytes. -/
theorem lookups_are_canonical (first second : List (String × Float))
    (hsame : ∀ name, name ∈ first.map (·.1) ↔ name ∈ second.map (·.1)) :
    (∀ name ∉ first.map (·.1), ∀ location, ∃ report,
      (bindAll first).lookup name location = .error report ∧
      (bindAll second).lookup name location = .error report ∧
      ReportsUnbound (first.map (·.1)) name location report) ∧
    (∀ before name value after, first = before ++ (name, value) :: after → name ∉ after.map (·.1) →
      ∀ location, (bindAll first).lookup name location = .ok value) ∧
    (bindAll first).names.Pairwise (fun name other => encode name < encode other) ∧
    (∀ name, name ∈ (bindAll first).names ↔ name ∈ first.map (·.1)) ∧
    (bindAll first).size = (first.map (·.1)).toFinset.card := by
  refine ⟨fun name hname location => ?_, ?_, ?_, fun _ => mem_names_bindAll, ?_⟩
  · have hfirst : name ∉ (bindAll first).names := fun hmem => hname (mem_names_bindAll.mp hmem)
    have hnames : (bindAll second).names = (bindAll first).names := by
      refine names_eq_of_mem_iff fun other => ?_
      rw [mem_names_bindAll, mem_names_bindAll, hsame]
    have hsecond : name ∉ (bindAll second).names := hnames ▸ hfirst
    refine ⟨_, lookup_of_not_mem hfirst location, ?_,
      reportsUnbound (fun _ => mem_names_bindAll) hfirst location⟩
    rw [lookup_of_not_mem hsecond, hnames]
  · rintro before name value after rfl hafter location
    exact lookup_of_get? (get?_bindAll before name value hafter) location
  · exact (bindAll first).names_pairwise.imp NumberInput.encode_lt_encode
  · have hnames : (bindAll first).names.toFinset = (first.map (·.1)).toFinset := by
      ext name
      rw [List.mem_toFinset, List.mem_toFinset, mem_names_bindAll]
    rw [← hnames, List.toFinset_card_of_nodup (bindAll first).names_nodup, names, List.length_map, size]

/-- Two names that are as near as each other: the one that comes first by its bytes is suggested, in
whatever order the two were bound. -/
theorem lookups_are_canonical_tie :
    ∃ report, (bindAll [("cat", 1.0), ("bat", 2.0)]).lookup "rat" .unknown = .error report ∧
      (bindAll [("bat", 3.0), ("cat", 4.0), ("bat", 5.0)]).lookup "rat" .unknown = .error report ∧
      report.suggestion = some "bat" ∧
      (bindAll [("bat", 3.0), ("cat", 4.0), ("bat", 5.0)]).lookup "bat" .unknown = .ok 5.0 := by
  have hsame : ∀ name, name ∈ ["cat", "bat"] ↔ name ∈ ["bat", "cat", "bat"] := by
    intro name
    simp only [List.mem_cons, List.not_mem_nil, or_false]
    tauto
  obtain ⟨hunbound, -⟩ :=
    lookups_are_canonical [("cat", 1.0), ("bat", 2.0)] [("bat", 3.0), ("cat", 4.0), ("bat", 5.0)] hsame
  obtain ⟨-, hlast, -⟩ :=
    lookups_are_canonical [("bat", 3.0), ("cat", 4.0), ("bat", 5.0)] [("cat", 1.0), ("bat", 2.0)]
      fun name => (hsame name).symm
  obtain ⟨report, hfirst, hsecond, hreport⟩ := hunbound "rat" (by decide) .unknown
  refine ⟨report, hfirst, hsecond, ?_,
    hlast [("bat", 3.0), ("cat", 4.0)] "bat" 5.0 [] rfl (by decide) .unknown⟩
  rcases hreport.meant with ⟨close, hmeant, hclose, -⟩ | ⟨hfar, -⟩
  · have hmem : close = "cat" ∨ close = "bat" := by simpa using hmeant.mem
    rcases hmem with rfl | rfl
    · exact absurd (hmeant.first "bat" (by decide) (by decide)) (by decide)
    · exact hclose
  · exact absurd (hfar "bat" (by decide)) (by decide)

end SymbolTable
end LoopScript
