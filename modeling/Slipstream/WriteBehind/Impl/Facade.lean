import Slipstream.Scan.Impl.Loop

/-!
This module contains the write-behind facade of `persist.rs`: the reads a scan call makes, served
from views that are seeded from the wallet and rolled forward with every unit that is stashed.
-/

namespace Slipstream
namespace WriteBehind

abbrev AccountId := Nat

abbrev Nullifier := List UInt8

structure OutPoint where
  txid : List UInt8
  n : Nat
  deriving DecidableEq, Repr

structure BlockMetadata where
  height : Nat
  hash : List UInt8
  saplingTreeSize : Option Nat
  orchardTreeSize : Option Nat
  ironwoodTreeSize : Option Nat
  deriving DecidableEq, Repr

structure WalletTx where
  saplingSpends : List Nullifier
  saplingOutputs : List (AccountId × Option Nullifier)
  orchardSpends : List Nullifier
  orchardOutputs : List (AccountId × Option Nullifier)
  ironwoodSpends : List Nullifier
  ironwoodOutputs : List (AccountId × Option Nullifier)
  transparentSpends : List OutPoint
  transparentOutputs : List (OutPoint × Option AccountId)
  deriving DecidableEq, Repr

structure ScannedBlock where
  height : Nat
  /-- `to_block_metadata` -/
  metadata : BlockMetadata
  transactions : List WalletTx
  deriving DecidableEq, Repr

structure PendingPersist (F : Type) where
  fromState : Scan.ChainState F
  blocks : List ScannedBlock
  firstHeight : Nat
  lastHeight : Nat

def applyNullifierDelta {A N : Type} [DecidableEq N] (set : List (A × N)) (spent : List N)
    (found : List (A × N)) : List (A × N) :=
  set.filter (fun x => !spent.contains x.2) ++ found

def applyOutpointDelta {K A : Type} [DecidableEq K] (set : List (K × A)) (spent : List K)
    (found : List (K × A)) : List (K × A) :=
  found.foldl insert (spent.foldl remove set)
where
  remove (set : List (K × A)) (key : K) : List (K × A) := set.filter fun x => x.1 ≠ key
  insert (set : List (K × A)) (entry : K × A) : List (K × A) := remove set entry.1 ++ [entry]

structure Views where
  saplingNfs : List (AccountId × Nullifier)
  orchardNfs : List (AccountId × Nullifier)
  ironwoodNfs : List (AccountId × Nullifier)
  transparentOutpoints : List (OutPoint × AccountId)
  deriving DecidableEq, Repr

def known {α β : Type} (outputs : WalletTx → List (α × Option β)) (block : ScannedBlock)
    : List (α × β) :=
  block.transactions.flatMap fun tx => (outputs tx).filterMap fun o => o.2.map (o.1, ·)

def Views.advance (v : Views) (block : ScannedBlock) : Views where
  saplingNfs := applyNullifierDelta v.saplingNfs (block.transactions.flatMap (·.saplingSpends))
    (known (·.saplingOutputs) block)
  orchardNfs := applyNullifierDelta v.orchardNfs (block.transactions.flatMap (·.orchardSpends))
    (known (·.orchardOutputs) block)
  ironwoodNfs := applyNullifierDelta v.ironwoodNfs (block.transactions.flatMap (·.ironwoodSpends))
    (known (·.ironwoodOutputs) block)
  transparentOutpoints := applyOutpointDelta v.transparentOutpoints
    (block.transactions.flatMap (·.transparentSpends)) (known (·.transparentOutputs) block)

structure Views.Same (v w : Views) : Prop where
  sapling : ∀ x, x ∈ v.saplingNfs ↔ x ∈ w.saplingNfs
  orchard : ∀ x, x ∈ v.orchardNfs ↔ x ∈ w.orchardNfs
  ironwood : ∀ x, x ∈ v.ironwoodNfs ↔ x ∈ w.ironwoodNfs
  outpoints : ∀ x, x ∈ v.transparentOutpoints ↔ x ∈ w.transparentOutpoints

def NullifiersUpdated {A N : Type} (before : List (A × N)) (spent : List N) (found : List (A × N))
    (after : List (A × N)) : Prop :=
  ∀ x, x ∈ after ↔ (x ∈ before ∧ x.2 ∉ spent) ∨ x ∈ found

def OutpointsUpdated {K A : Type} [DecidableEq K] (before : List (K × A)) (spent : List K)
    (found : List (K × A)) (after : List (K × A)) : Prop :=
  ∀ x, x ∈ after ↔ (x ∈ before ∧ x.1 ∉ spent ∧ x.1 ∉ found.map Prod.fst)
    ∨ found.reverse.find? (fun entry => decide (entry.1 = x.1)) = some x

structure Views.Updated (before : Views) (block : ScannedBlock) (after : Views) : Prop where
  sapling : NullifiersUpdated before.saplingNfs (block.transactions.flatMap (·.saplingSpends))
    (known (·.saplingOutputs) block) after.saplingNfs
  orchard : NullifiersUpdated before.orchardNfs (block.transactions.flatMap (·.orchardSpends))
    (known (·.orchardOutputs) block) after.orchardNfs
  ironwood : NullifiersUpdated before.ironwoodNfs (block.transactions.flatMap (·.ironwoodSpends))
    (known (·.ironwoodOutputs) block) after.ironwoodNfs
  outpoints : OutpointsUpdated before.transparentOutpoints
    (block.transactions.flatMap (·.transparentSpends)) (known (·.transparentOutputs) block)
    after.transparentOutpoints

inductive Views.UpdatedBy : Views → List ScannedBlock → Views → Prop where
  | nil (h : v.Same w) : UpdatedBy v [] w
  | cons (h : v.Updated block u) (hrest : UpdatedBy u blocks w) : UpdatedBy v (block :: blocks) w

structure WalletDb (D E : Type) where
  unifiedFullViewingKeys : D → List (AccountId × List UInt8)
  blockMetadata : D → Nat → Option BlockMetadata
  unspent : D → Views
  transparentReceivers : D → List (List UInt8 × AccountId × Option Nat)
  putBlocks : D → List ScannedBlock → D
  enhance : D → E → D
  putBlocks_unspent : ∀ d blocks, (unspent d).UpdatedBy blocks (unspent (putBlocks d blocks))
  putBlocks_blockMetadata : ∀ d blocks block, blocks.getLast? = some block →
    blockMetadata (putBlocks d blocks) block.height = some block.metadata
  enhance_blockMetadata : ∀ d e, blockMetadata (enhance d e) = blockMetadata d

inductive DbRead where
  | unifiedFullViewingKeys
  | blockMetadata
  | saplingNullifiers
  | orchardNullifiers
  | ironwoodNullifiers
  | transparentOutpoints
  | transparentReceivers
  deriving DecidableEq, Repr

abbrev ReadFaults := DbRead → Option String

def ReadFaults.read {α : Type} (faults : ReadFaults) (which : DbRead) (value : α)
    : Except String α :=
  match faults which with
  | some e => .error e
  | none => .ok value

structure Facade (F : Type) where
  ufvks : List (AccountId × List UInt8)
  priorMetaHeight : Nat
  priorMeta : Option BlockMetadata
  views : Views
  transparentReceivers : List (List UInt8 × AccountId × Option Nat)
  stash : Option (PendingPersist F)

namespace Facade

variable {F D E : Type}

def seed (api : WalletDb D E) (faults : ReadFaults) (db : D) (rangeStart : Nat)
    : Except String (Facade F) :=
  if rangeStart = 0 ∨ 2 ^ 32 ≤ rangeStart - 1 then
    .error s!"write-behind facade: invalid range_start {rangeStart}"
  else do
    let priorMetaHeight := rangeStart - 1
    let ufvks ← faults.read .unifiedFullViewingKeys (api.unifiedFullViewingKeys db)
    let priorMeta ← faults.read .blockMetadata (api.blockMetadata db priorMetaHeight)
    let saplingNfs ← faults.read .saplingNullifiers (api.unspent db).saplingNfs
    let orchardNfs ← faults.read .orchardNullifiers (api.unspent db).orchardNfs
    let ironwoodNfs ← faults.read .ironwoodNullifiers (api.unspent db).ironwoodNfs
    let transparentOutpoints ←
      faults.read .transparentOutpoints (api.unspent db).transparentOutpoints
    let transparentReceivers ← faults.read .transparentReceivers (api.transparentReceivers db)
    return {
      ufvks
      priorMetaHeight
      priorMeta
      views := { saplingNfs, orchardNfs, ironwoodNfs, transparentOutpoints }
      transparentReceivers
      stash := none }

def reseedNullifiers (api : WalletDb D E) (faults : ReadFaults) (db : D) (facade : Facade F)
    : Facade F × Except String Unit :=
  if facade.stash.isSome then
    (facade, .error "write-behind facade: reseed_nullifiers with an occupied stash")
  else
    let unspent := api.unspent db
    match faults .saplingNullifiers with
    | some e => (facade, .error e)
    | none =>
    let views := { facade.views with saplingNfs := unspent.saplingNfs }
    match faults .orchardNullifiers with
    | some e => ({ facade with views }, .error e)
    | none =>
    let views := { views with orchardNfs := unspent.orchardNfs }
    match faults .ironwoodNullifiers with
    | some e => ({ facade with views }, .error e)
    | none =>
    let views := { views with ironwoodNfs := unspent.ironwoodNfs }
    match faults .transparentOutpoints with
    | some e => ({ facade with views }, .error e)
    | none =>
    let views := { views with transparentOutpoints := unspent.transparentOutpoints }
    match faults .transparentReceivers with
    | some e => ({ facade with views }, .error e)
    | none =>
      ({ facade with views, transparentReceivers := api.transparentReceivers db }, .ok ())

def takeStash (facade : Facade F) : Facade F × Option (PendingPersist F) :=
  ({ facade with stash := none }, facade.stash)

def blockMetadata (facade : Facade F) (height : Nat) : Except String (Option BlockMetadata) :=
  if height = facade.priorMetaHeight then
    .ok facade.priorMeta
  else
    .error s!"write-behind facade: block_metadata({height}) outside the virtualized tail (expected {facade.priorMetaHeight})"

def putBlocks (facade : Facade F) (fromState : Scan.ChainState F) (blocks : List ScannedBlock)
    : Facade F × Except String Unit :=
  if facade.stash.isSome then
    (facade, .error
      "write-behind facade: put_blocks with an occupied stash — depth-1 invariant violated")
  else
    match blocks.head?, blocks.getLast? with
    | some first, some last =>
      ({ facade with
          priorMetaHeight := last.height
          priorMeta := some last.metadata
          views := blocks.foldl Views.advance facade.views
          stash := some {
            fromState
            blocks
            firstHeight := first.height
            lastHeight := last.height } },
        .ok ())
    | _, _ => (facade, .ok ())

end Facade

end WriteBehind
end Slipstream
