import Slipstream.Oracle.Lemmas.Row

/-!
This module contains what a clean oracle report says about two databases: it is a verdict on the
decoded rows of what the first database can be asked for.
-/

namespace Slipstream
namespace Oracle

theorem onlyIn_eq_nil_iff (ms other : List Bytes)
    : onlyIn ms other = [] ↔ ∀ row, ms.count row ≤ other.count row := by
  rw [onlyIn, ← List.length_eq_zero_iff, (List.perm_insertionSort _ _).length_eq,
    List.length_eq_zero_iff, List.flatMap_eq_nil_iff]
  constructor
  . intro h row
    by_cases hrow : row ∈ ms
    . have hnone := h row (List.mem_dedup.mpr hrow)
      rw [List.replicate_eq_nil_iff] at hnone
      omega
    . rw [List.count_eq_zero_of_not_mem hrow]
      exact Nat.zero_le _
  . intro h row _
    rw [List.replicate_eq_nil_iff]
    have := h row
    omega

theorem TableDiff.isClean_iff (name : String) (msA msB : List Bytes)
    : TableDiff.isClean {
          table := name, rowsA := msA.length, rowsB := msB.length
          onlyInA := onlyIn msA msB, onlyInB := onlyIn msB msA } = true
      ↔ msA.Perm msB := by
  simp only [isClean, Bool.and_eq_true, List.isEmpty_iff, beq_iff_eq, onlyIn_eq_nil_iff,
    List.perm_iff_count]
  constructor
  . rintro ⟨⟨hab, hba⟩, -⟩ row
    exact Nat.le_antisymm (hab row) (hba row)
  . intro h
    refine ⟨⟨fun row => (h row).le, fun row => (h row).ge⟩, ?_⟩
    exact (List.perm_iff_count.mpr h).length_eq

section Verdict

variable {R : Type} (ops : RealOps R) (retention : Nat) (a b : Database R)

def comparedRows (db : Database R) (name : String) : List (Cells R) :=
  match db.table? name with
  | some t => t.select ops (db.tableColumns name) (minHeight ops retention a b name)
  | none => []

/-- The same tables, names being the same as they are for SQLite. -/
def SameTables : Prop :=
  ∀ key, (∃ name ∈ a.listTables, nocase name = key) ↔ ∃ name ∈ b.listTables, nocase name = key

structure Same : Prop where
  tables : SameTables a b
  rows : ∀ name ∈ allTables a b,
    (comparedRows ops retention a b a name).Perm (comparedRows ops retention a b b name)

def SameColumns : Prop :=
  ∀ name t u, a.table? name = some t → b.table? name = some u → t.columns = u.columns

def Legible : Prop :=
  ∀ name ∈ allTables a b, ∀ row ∈ comparedRows ops retention a b a name
    ++ comparedRows ops retention a b b name, Separable row

def SameDecoded (name : String) : Prop :=
  ((comparedRows ops retention a b a name).map decodedRow).Perm
    ((comparedRows ops retention a b b name).map decodedRow)

/-- A difference in the decoded rows of what the first database can be asked for. -/
def Shown : Prop :=
  ∃ name ∈ allTables a b, a.tableColumns name ≠ [] ∧ ¬SameDecoded ops retention a b name

/-- The tables are the same and no row differs only where nobody looks or in what decoding drops. -/
structure Unhidden : Prop where
  tables : SameTables a b
  rows : ∀ name ∈ allTables a b, a.tableColumns name = [] ∨ SameDecoded ops retention a b name →
    (comparedRows ops retention a b a name).Perm (comparedRows ops retention a b b name)

variable {a b}

theorem tableColumns_eq (hcols : SameColumns a b) (ha : a.table? name = some t)
    (hb : b.table? name = some u) : a.tableColumns name = b.tableColumns name := by
  simp only [Database.tableColumns, ha, hb, hcols name t u ha hb]

theorem columns_of_mem_comparedRows (hcols : SameColumns a b) (hsome : a.tableColumns name ≠ [])
    {row : Cells R} (h : row ∈ comparedRows ops retention a b a name
      ++ comparedRows ops retention a b b name) : row.map Prod.fst = a.tableColumns name := by
  have hselect : ∀ db : Database R, row ∈ comparedRows ops retention a b db name →
      row.map Prod.fst = db.tableColumns name ∧ ∃ t, db.table? name = some t := by
    intro db hrow
    unfold comparedRows at hrow
    cases hdb : db.table? name with
    | none =>
      rw [hdb] at hrow
      cases hrow
    | some t =>
      rw [hdb] at hrow
      obtain ⟨values, -, rfl⟩ := List.mem_map.mp hrow
      simp [Function.comp_def]
  rcases List.mem_append.mp h with ha | hb
  . exact (hselect a ha).1
  . obtain ⟨hrow, u, hu⟩ := hselect b hb
    rw [hrow]
    cases ht : a.table? name with
    | none => simp [Database.tableColumns, ht] at hsome
    | some t => exact (tableColumns_eq hcols ht hu).symm

theorem perm_map_of_forall {α β γ : Type} {f : α → β} {g : α → γ} {l m : List α}
    (h : ∀ x ∈ l ++ m, ∀ y ∈ l ++ m, f x = f y → g x = g y) (hperm : (l.map f).Perm (m.map f))
    : (l.map g).Perm (m.map g) := by
  classical
  -- On the elements at hand `g` is a function of `f`.
  let k : β → Option γ := fun z => ((l ++ m).find? fun x => decide (f x = z)).map g
  have hk : ∀ x ∈ l ++ m, k (f x) = some (g x) := by
    intro x hx
    cases hfind : (l ++ m).find? fun y => decide (f y = f x) with
    | none => simpa using List.find?_eq_none.mp hfind x hx
    | some y =>
      have hy := List.find?_some hfind
      simp only [k, hfind, Option.map_some, h y (List.mem_of_find?_eq_some hfind) x hx (by simpa using hy)]
  have hmap : ∀ n : List α, (∀ x ∈ n, x ∈ l ++ m) → (n.map f).map k = (n.map g).map some := by
    intro n hn
    rw [List.map_map, List.map_map]
    exact List.map_congr_left fun x hx => hk x (hn x hx)
  have hsome := hperm.map k
  rw [hmap l fun _ => List.mem_append_left _, hmap m fun _ => List.mem_append_right _] at hsome
  exact (List.map_perm_map_iff (Option.some_injective γ)).mp hsome

theorem sameText_iff (hreals : ops.Lawful) (hcols : SameColumns a b)
    (hlegible : Legible ops retention a b) (hname : name ∈ allTables a b)
    (hsome : a.tableColumns name ≠ [])
    : ((comparedRows ops retention a b a name).map (canonicalRow ops)).Perm
          ((comparedRows ops retention a b b name).map (canonicalRow ops))
        ↔
      SameDecoded ops retention a b name := by
  refine ⟨perm_map_of_forall fun r hr r' hr' h => ?_, perm_map_of_forall fun r _ r' _ h => ?_⟩
  . apply decodedRow_eq_of_text_eq hreals _ (hlegible name hname r hr) (hlegible name hname r' hr') h
    rw [columns_of_mem_comparedRows ops retention hcols hsome hr,
      columns_of_mem_comparedRows ops retention hcols hsome hr']
  . exact canonicalRow_congr h

theorem tableDiff_isClean_iff (hcols : SameColumns a b) (hsome : a.tableColumns name ≠ [])
    : (tableDiff ops retention a b name).isClean = true
      ↔ ((comparedRows ops retention a b a name).map (canonicalRow ops)).Perm
          ((comparedRows ops retention a b b name).map (canonicalRow ops)) := by
  obtain ⟨t, ht⟩ : ∃ t, a.table? name = some t := by
    cases ht : a.table? name with
    | none => simp [Database.tableColumns, ht] at hsome
    | some t => exact ⟨t, rfl⟩
  have hA : (a.rowMultiset ops name (a.tableColumns name) (minHeight ops retention a b name)).toOption.getD []
      = (comparedRows ops retention a b a name).map (canonicalRow ops) := by
    simp [Database.rowMultiset, comparedRows, ht, hsome, Except.toOption]
  have hB : (b.rowMultiset ops name (a.tableColumns name) (minHeight ops retention a b name)).toOption.getD []
      = (comparedRows ops retention a b b name).map (canonicalRow ops) := by
    cases hu : b.table? name with
    | none => simp [Database.rowMultiset, comparedRows, hu, Except.toOption]
    | some u =>
      have := tableColumns_eq hcols ht hu
      simp [Database.rowMultiset, comparedRows, hu, hsome, ← this, Except.toOption]
  rw [tableDiff, TableDiff.isClean_iff, hA, hB]

theorem tableDiff_isClean_of_nil (hnone : a.tableColumns name = [])
    : (tableDiff ops retention a b name).isClean = true := by
  have hfails : ∀ db : Database R,
      (db.rowMultiset ops name [] (minHeight ops retention a b name)).toOption.getD [] = [] := by
    intro db
    cases hu : db.table? name <;> simp [Database.rowMultiset, hu, Except.toOption]
  rw [tableDiff, hnone, TableDiff.isClean_iff, hfails, hfails]

theorem isClean_iff_not_shown (hreals : ops.Lawful) (hcols : SameColumns a b)
    (hlegible : Legible ops retention a b)
    : isClean (semanticDiff ops retention a b) = true ↔ ¬Shown ops retention a b := by
  simp only [isClean, semanticDiff, List.all_eq_true, List.mem_map]
  constructor
  . rintro hclean ⟨name, hname, hsome, hdiffer⟩
    have hentry := hclean _ ⟨name, hname, rfl⟩
    rw [tableDiff_isClean_iff ops retention hcols hsome] at hentry
    exact hdiffer ((sameText_iff ops retention hreals hcols hlegible hname hsome).mp hentry)
  . rintro hshown _ ⟨name, hname, rfl⟩
    by_cases hsome : a.tableColumns name = []
    . exact tableDiff_isClean_of_nil ops retention hsome
    . rw [tableDiff_isClean_iff ops retention hcols hsome,
        sameText_iff ops retention hreals hcols hlegible hname hsome]
      by_contra hdiffer
      exact hshown ⟨name, hname, hsome, hdiffer⟩

end Verdict

def oneTable (name : String) (isView : Bool) (columns : List String) (row : List Bytes)
    (h : row.length = columns.length) : Database Empty where
  tables := [(name, {
    isView
    columns
    rows := [row.map .text]
    arity := by simpa using h })]
  names := by simp

def noReals : RealOps Empty where
  debug := nofun
  lt := nofun
  ltInt := nofun
  intLt _ := nofun

def noTables : Database Empty where
  tables := []
  names := by simp

def hashes (bytes : Bytes) : Database Empty := oneTable "blocks" false ["hash"] [bytes] rfl

theorem hashes_columns {bytes : Bytes} (h : (hashes bytes).table? name = some t) : t.columns = ["hash"] := by
  obtain ⟨p, hp, rfl⟩ := Option.map_eq_some_iff.mp h
  rw [List.mem_singleton.mp (List.mem_of_find?_eq_some hp)]

end Oracle
end Slipstream
