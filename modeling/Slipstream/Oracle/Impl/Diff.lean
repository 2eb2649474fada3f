import Mathlib.Algebra.Ring.Int.Defs
import Mathlib.Algebra.Ring.Nat
import Mathlib.Data.List.Dedup
import Mathlib.Data.List.Sort

/-!
This module contains the golden-oracle diff of `oracle.rs`: how two wallet databases are read table
by table, how a row is written out, and the report.
-/

namespace Slipstream
namespace Oracle

abbrev Bytes := List UInt8

def utf8 (s : String) : Bytes := s.toUTF8.data.toList

inductive Value (R : Type) where
  | null
  | integer (i : Int)
  | real (r : R)
  | text (bytes : Bytes)
  | blob (bytes : Bytes)
  deriving DecidableEq

structure RealOps (R : Type) where
  debug : R → Bytes
  lt : R → R → Bool
  ltInt : R → Int → Bool
  intLt : Int → R → Bool

def ALLOWLIST : List (String × String) := [("accounts", "uuid")]

def TRANSIENT_WINDOW_TABLES : List String :=
  ["nullifier_map", "tx_locator_map", "transparent_spend_locator_map"]

def follows (low high : UInt8) (b : Option UInt8) : Bool :=
  match b with
  | some b => low ≤ b && b ≤ high
  | none => false

def lossyStep (b : UInt8) (rest : Bytes) : Bool × Nat :=
  if b < 0x80 then
    (true, 1)
  else if 0xC2 ≤ b && b ≤ 0xDF then
    if follows 0x80 0xBF rest[0]? then (true, 2) else (false, 1)
  else if 0xE0 ≤ b && b ≤ 0xEF then
    let low := if b = 0xE0 then 0xA0 else 0x80
    let high := if b = 0xED then 0x9F else 0xBF
    if !follows low high rest[0]? then (false, 1)
    else if !follows 0x80 0xBF rest[1]? then (false, 2)
    else (true, 3)
  else if 0xF0 ≤ b && b ≤ 0xF4 then
    let low := if b = 0xF0 then 0x90 else 0x80
    let high := if b = 0xF4 then 0x8F else 0xBF
    if !follows low high rest[0]? then (false, 1)
    else if !follows 0x80 0xBF rest[1]? then (false, 2)
    else if !follows 0x80 0xBF rest[2]? then (false, 3)
    else (true, 4)
  else
    (false, 1)

/-- `String::from_utf8_lossy`: broken parts become U+FFFD. -/
def fromUtf8Lossy (bytes : Bytes) : Bytes :=
  go bytes.length bytes
where
  go : Nat → Bytes → Bytes
    | 0, _ => []
    | _, [] => []
    | fuel + 1, b :: rest =>
      let (valid, width) := lossyStep b rest
      (if valid then (b :: rest).take width else [0xEF, 0xBF, 0xBD])
        ++ go fuel ((b :: rest).drop width)

def hexDigit (n : UInt8) : UInt8 := if n < 10 then 48 + n else 87 + n

/-- SQLite's comparison of names: letters of the ASCII range match in either case. -/
def nocase (name : String) : List Char := name.toList.map Char.toLower

/-- A table or a view of the schema, a view with the rows it selects. -/
structure Table (R : Type) where
  isView : Bool
  columns : List String
  rows : List (List (Value R))
  arity : ∀ row ∈ rows, row.length = columns.length

structure Database (R : Type) where
  tables : List (String × Table R)
  names : (tables.map fun t => nocase t.1).Nodup

abbrev Cells (R : Type) := List (String × Value R)

section Diff

variable {R : Type} (ops : RealOps R) (retention : Nat)

def canonicalValue : Value R → Bytes
  | .null => utf8 "NULL"
  | .integer i => utf8 (toString i)
  | .real r => ops.debug r
  | .text t => utf8 "'" ++ fromUtf8Lossy t ++ utf8 "'"
  | .blob b => utf8 "x'" ++ b.flatMap (fun byte => [hexDigit (byte / 16), hexDigit (byte % 16)])
      ++ utf8 "'"

def canonicalRow (cells : Cells R) : Bytes :=
  cells.flatMap fun (col, v) => utf8 col ++ utf8 "=" ++ canonicalValue ops v ++ utf8 "|"

def Value.lt : Value R → Value R → Bool
  | .null, .null => false
  | .null, _ => true
  | .integer i, .integer j => i < j
  | .integer i, .real r => ops.intLt i r
  | .real r, .integer i => ops.ltInt r i
  | .real r, .real s => ops.lt r s
  | .text s, .text t => s < t
  | .blob s, .blob t => s < t
  | .integer _, .text _ | .integer _, .blob _ | .real _, .text _ | .real _, .blob _ => true
  | .text _, .blob _ => true
  | _, _ => false

def sqlMax (values : List (Value R)) : Value R :=
  values.foldl (fun best v => if best.lt ops v then v else best) .null

def Value.atLeast (height : Nat) : Value R → Bool
  | .null => false
  | .integer i => (height : Int) ≤ i
  | .real r => !ops.ltInt r height
  | .text _ | .blob _ => true

def Value.toHeight : Value R → Except Unit (Option Nat)
  | .null => .ok none
  | .integer i => if 0 ≤ i ∧ i < 2 ^ 32 then .ok (some i.toNat) else .error ()
  | _ => .error ()

namespace Table

def value (t : Table R) (row : List (Value R)) (col : String) : Value R :=
  (((t.columns.map nocase).zip row).lookup (nocase col)).getD .null

def keptRows (t : Table R) (minHeight : Option Nat) : List (List (Value R)) :=
  match minHeight with
  | some height => t.rows.filter fun row => (t.value row "block_height").atLeast ops height
  | none => t.rows

def select (t : Table R) (cols : List String) (minHeight : Option Nat) : List (Cells R) :=
  (t.keptRows ops minHeight).map fun row => cols.map fun col => (col, t.value row col)

end Table

namespace Database

/-- What `name` stands for in a statement: a table or a view, whatever the case of its letters. -/
def table? (db : Database R) (name : String) : Option (Table R) :=
  (db.tables.find? fun t => nocase t.1 == nocase name).map Prod.snd

/-- `name LIKE 'sqlite_%'`, where the underscore stands for any character. -/
def internal (name : String) : Bool :=
  (nocase name).take 6 == "sqlite".toList && 7 ≤ name.toList.length

def listTables (db : Database R) : List String :=
  (db.tables.filter fun t => !t.2.isView && !internal t.1).map Prod.fst

/-- The columns off the allowlist; `table_info` of a table that is not there has no rows. -/
def tableColumns (db : Database R) (name : String) : List String :=
  match db.table? name with
  | some t => t.columns.filter fun col => !ALLOWLIST.contains (name, col)
  | none => []

def maxHeight (db : Database R) (name : String) : Except Unit (Option Nat) :=
  match db.table? name with
  | some t =>
    if (t.columns.map nocase).contains (nocase "block_height") then
      (sqlMax ops (t.rows.map fun row => t.value row "block_height")).toHeight
    else
      .error ()
  | none => .error ()

def rowMultiset (db : Database R) (name : String) (cols : List String) (minHeight : Option Nat)
    : Except Unit (List Bytes) :=
  match db.table? name with
  | some t =>
    if cols.isEmpty then .error ()
    else .ok ((t.select ops cols minHeight).map (canonicalRow ops))
  | none => .error ()

end Database

def transientWindowFloor (a b : Database R) (name : String) : Except Unit (Option Nat) := do
  let heightA ← a.maxHeight ops name
  let heightB ← b.maxHeight ops name
  let highest := match heightA, heightB with
    | some x, some y => some (max x y)
    | some x, none => some x
    | none, y => y
  return highest.map (· - retention)

def minHeight (a b : Database R) (name : String) : Option Nat :=
  if TRANSIENT_WINDOW_TABLES.contains name then
    match transientWindowFloor ops retention a b name with
    | .ok floor => floor
    | .error _ => none
  else
    none

structure TableDiff where
  table : String
  rowsA : Nat
  rowsB : Nat
  onlyInA : List Bytes
  onlyInB : List Bytes

def TableDiff.isClean (d : TableDiff) : Bool :=
  d.onlyInA.isEmpty && d.onlyInB.isEmpty && d.rowsA == d.rowsB

def onlyIn (ms other : List Bytes) : List Bytes :=
  (ms.dedup.flatMap fun row => List.replicate (ms.count row - other.count row) row).insertionSort
    (· ≤ ·)

def tableDiff (a b : Database R) (name : String) : TableDiff :=
  let cols := a.tableColumns name
  let floor := minHeight ops retention a b name
  let msA := (a.rowMultiset ops name cols floor).toOption.getD []
  let msB := (b.rowMultiset ops name cols floor).toOption.getD []
  { table := name, rowsA := msA.length, rowsB := msB.length
    onlyInA := onlyIn msA msB, onlyInB := onlyIn msB msA }

def allTables (a b : Database R) : List String :=
  (a.listTables ++ b.listTables.filter fun name => !a.listTables.contains name).insertionSort (· ≤ ·)

def semanticDiff (a b : Database R) : List TableDiff :=
  (allTables a b).map (tableDiff ops retention a b)

def isClean (report : List TableDiff) : Bool := report.all TableDiff.isClean

end Diff

end Oracle
end Slipstream
