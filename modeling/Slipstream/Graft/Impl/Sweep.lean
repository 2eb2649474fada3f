import Slipstream.Graft.Impl.Buffer
import Mathlib.Data.List.Sort

/-!
This module contains the decisions of the pass-start sweep in `graft.rs`: which buffered runs nothing
will resume, how a run's end can be checked, and which scanned blocks to rescan for it.
-/

namespace Slipstream

variable {H B E : Type}

structure Run where
  first : Nat
  last : Nat
  deriving DecidableEq, Repr

def Run.contains (run : Run) (position : Nat) : Bool :=
  decide (run.first ≤ position) && decide (position ≤ run.last)

structure Span where
  start : Nat
  stop : Nat
  deriving DecidableEq, Repr

def contiguousRuns (positions : List Nat) : List Run :=
  positions.foldl extend []
where
  extend (runs : List Run) (p : Nat) : List Run :=
    match runs.getLast? with
    | some run =>
      if run.last + 1 = p then
        runs.dropLast ++ [{ run with last := p }]
      else
        runs ++ [⟨p, p⟩]
    | none => [⟨p, p⟩]

/-- The start of the first range to seed in each shard, `none` for a shard that is left out. -/
def firstSeeders (starts : List (Option Nat)) : Nat → Option Nat :=
  go .empty false starts
where
  go (claimed : OrdMap Nat (Option Nat)) (unknownStartBefore : Bool)
      : List (Option Nat) → Nat → Option Nat
    | [] => fun shard => (claimed.get? shard).join
    | some position :: rest =>
      match claimed.get? (shardOf position) with
      | some _ => go claimed unknownStartBefore rest
      | none =>
        let start := if unknownStartBefore then none else some position
        go (claimed.insert (shardOf position) start) unknownStartBefore rest
    | none :: rest => go claimed true rest

def strandedRuns (positions : List Nat) (resumeAt : Option Nat) : List Run :=
  let resumed := resumeAt.bind fun start => if 1 ≤ start then some (start - 1) else none
  (contiguousRuns positions).filter fun run => !resumed.any run.contains

inductive EndCheck (H : Type) where
  | lastLeaf
  | shardRoot (root : H)

def endCheck (run : Run) (lastLeafMatches : Bool) (storedRoot : Option H) : Option (EndCheck H) :=
  if lastLeafMatches then
    some .lastLeaf
  else if (run.last + 1) % (1 <<< SHARD_BITS) = 0 then
    storedRoot.map .shardRoot
  else
    none

def rowsCoverRun (rows : List (AccRow H)) (run : Run) : Bool :=
  rows.length == run.last - run.first + 1
    && rows.head?.any (·.position == run.first)
    && contiguous rows
where
  contiguous : List (AccRow H) → Bool
    | a :: b :: rest => a.position + 1 == b.position && contiguous (b :: rest)
    | _ => true

def scannedStretches (pending : List Span) (floor stop : Nat) : List Span :=
  (go floor (pending.insertionSort (·.start ≤ ·.start))).filter fun s => s.start < s.stop
where
  go (next : Nat) : List Span → List Span
    | [] => if next < stop then [⟨next, stop⟩] else []
    | range :: rest =>
      let below := if next < range.start then [⟨next, min range.start stop⟩] else []
      let next := max next range.stop
      -- Past the end, nothing is left to look at.
      if stop ≤ next then below else below ++ go next rest

section Rescans

variable (sizeAt : Nat → Except E (Option Nat))

def firstBlockPast (position : Nat) (stretch : Span) : Except E (Option Nat) := do
  match ← sizeAt (stretch.stop - 1) with
  | none => return none
  | some size =>
    if size ≤ position then
      return none
    else
      search (stretch.stop - 1 - stretch.start) stretch.start (stretch.stop - 1)
where
  -- The interval shrinks in every round, so its length is enough fuel.
  search (fuel lo hi : Nat) : Except E (Option Nat) :=
    match fuel with
    | 0 => return some lo
    | fuel + 1 =>
      if lo < hi then do
        let mid := lo + (hi - lo) / 2
        match ← sizeAt mid with
        | some size => if position < size then search fuel lo mid else search fuel (mid + 1) hi
        | none => return none
      else
        return some lo

def walkFromNewest (run : Run) (stretches : List Span) : Except E (Option (List Span)) :=
  go [] none stretches.reverse
where
  done (rescans : List Span) (pastLast : Option Span) : List Span :=
    (rescans ++ pastLast.toList).reverse
  go (rescans : List Span) (pastLast : Option Span)
      : List Span → Except E (Option (List Span))
    | [] => return some (done rescans pastLast)
    | stretch :: older => do
      match ← sizeAt (stretch.stop - 1) with
      | none => return none
      | some endSize =>
        if endSize ≤ run.first then
          return some (done rescans pastLast)
        else
          match ← firstBlockPast sizeAt run.first stretch with
          | none => return none
          | some start =>
            if run.last < endSize then
              match ← firstBlockPast sizeAt run.last stretch with
              | none => return none
              | some last =>
                let pastLast := some ⟨start, last + 1⟩
                if stretch.start < start then
                  return some (done rescans pastLast)
                else
                  go rescans pastLast older
            else
              let rescans := rescans ++ pastLast.toList ++ [⟨start, stretch.stop⟩]
              -- The block before `start` ends below the run: the run begins here.
              if stretch.start < start then
                return some (done rescans none)
              else
                go rescans none older

def walkFromOldest (run : Run) : List Span → Except E (Option (List Span))
  | [] => return some []
  | stretch :: newer => do
    match ← sizeAt (stretch.stop - 1) with
    | none => return none
    | some endSize =>
      if endSize ≤ run.first then
        walkFromOldest run newer
      else
        match ← firstBlockPast sizeAt run.first stretch with
        | none => return none
        | some start =>
          if run.last < endSize then
            match ← firstBlockPast sizeAt run.last stretch with
            | none => return none
            | some last => return some [⟨start, last + 1⟩]
          else
            match ← walkFromOldest run newer with
            | none => return none
            | some rescans => return some (⟨start, stretch.stop⟩ :: rescans)

/-- The block ranges to rescan for a run, `none` when the sizes do not place it. -/
def rescansFor (run : Run) (stretches : List Span) : Except E (Option (List Span)) := do
  match ← walkFromNewest sizeAt run stretches with
  | some rescans => return some rescans
  | none => walkFromOldest sizeAt run stretches

end Rescans

end Slipstream
