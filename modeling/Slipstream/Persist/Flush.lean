import Slipstream.Machine.Basic
import Slipstream.Persist.Lemmas.Mirror

/-!
This module contains the incremental flush: however the commitment tree library writes to a seeded
store, each flush leaves SQLite with what is in memory.
-/

namespace Slipstream

variable {H Shard : Type}

inductive StoreOp (Shard : Type) where
  | putShard (idx : Nat) (shard : Shard)
  | putCap (cap : Shard)
  | addCheckpoint (id : Nat) (checkpoint : Checkpoint)
  | updateCheckpoint (id : Nat) (update : Checkpoint → Checkpoint × Except String Unit)
  | removeCheckpoint (id : Nat)
  | addRetained (id : Nat)
  | flush

structure StorePair (Shard : Type) where
  db : SqlTree Shard
  store : SparseShardStore Shard

namespace StorePair

def step (st : StorePair Shard) : StoreOp Shard → Option (StorePair Shard)
  | .putShard idx shard => some { st with store := st.store.putShard (idx, shard) }
  | .putCap cap => some { st with store := st.store.putCap cap }
  | .addCheckpoint id checkpoint => some { st with store := st.store.addCheckpoint (id, checkpoint) }
  | .updateCheckpoint id update => some { st with store := (st.store.updateCheckpointWith id update).1 }
  | .removeCheckpoint id => some { st with store := st.store.removeCheckpoint id }
  | .addRetained id => some { st with store := st.store.ensureRetained id }
  | .flush =>
    match st.store.flush st.db with
    | .ok (db, store) => some { db, store }
    | .error _ => none

def latest (_ : StorePair Shard) (op : StoreOp Shard) (_ : StorePair Shard)
    (contents : Nat → Option Shard) : Nat → Option Shard :=
  match op with
  | .putShard idx shard => Function.update contents idx (some shard)
  | _ => contents

end StorePair

def storeMachine (policy : Option AnchorRetention)
    : Machine (StorePair Shard × (Nat → Option Shard)) (StoreOp Shard) :=
  Machine.observed
    { start := fun st => st.store = .seed st.db policy, step := StorePair.step }
    (fun st contents => contents = st.db.shards.get?) StorePair.latest

structure StoreInv (st : StorePair Shard) (contents : Nat → Option Shard) : Prop where
  inStep : st.store.InStep st.db
  latest : st.store.shards.get? = contents

section Invariant

variable {st st' : StorePair Shard} {contents : Nat → Option Shard}

theorem StoreInv.flush (h : StoreInv st contents) (hstep : st.step .flush = some st')
    : StoreInv st' contents ∧ st'.db.shards = st'.store.shards ∧ st'.db.cap = st'.store.cap
      ∧ st'.db.checkpoints = st'.store.checkpoints := by
  unfold StorePair.step at hstep
  dsimp only at hstep
  split at hstep
  . next db store hflush =>
    cases hstep
    have hmatches := h.inStep.flush hflush
    refine ⟨⟨hmatches.toInStep, ?_⟩, hmatches.same_shards.symm, hmatches.same_cap.symm,
      hmatches.same_checkpoints.symm⟩
    rw [← h.latest, flush_store hflush]
  . cases hstep

theorem StoreInv.step {op : StoreOp Shard} (h : StoreInv st contents)
    (hstep : st.step op = some st') : StoreInv st' (st.latest op st' contents) := by
  cases op with
  | flush => exact (h.flush hstep).1
  | putShard idx shard =>
    cases hstep
    refine ⟨h.inStep.putShard _, ?_⟩
    funext k
    rw [StorePair.latest, Function.update_apply, ← h.latest]
    rfl
  | putCap cap =>
    cases hstep
    exact ⟨h.inStep.putCap cap, h.latest⟩
  | updateCheckpoint id update =>
    cases hstep
    unfold SparseShardStore.updateCheckpointWith
    dsimp only
    split
    . exact ⟨⟨h.inStep.shards, h.inStep.flushable, h.inStep.cap, h.inStep.synced⟩, h.latest⟩
    . exact h
  | _ =>
    cases hstep
    exact ⟨⟨h.inStep.shards, h.inStep.flushable, h.inStep.cap, h.inStep.synced⟩, h.latest⟩

theorem storeInv_of_reach {policy : Option AnchorRetention}
    {st : StorePair Shard × (Nat → Option Shard)} (h : (storeMachine policy).Reachable st)
    : StoreInv st.1 st.2 := by
  apply Machine.Reach.invariant _ _ h
  . rintro ⟨st, contents⟩ ⟨hstore, hcontents⟩
    dsimp only at hstore hcontents
    constructor
    . dsimp only
      rw [hstore]
      apply SparseShardStore.seed_inStep
    . dsimp only
      rw [hstore, hcontents]
      rfl
  . rintro ⟨st, contents⟩ op st' hinv - hstep
    obtain ⟨st', hst', rfl⟩ := Option.map_eq_some_iff.mp hstep
    apply hinv.step hst'

theorem StoreInv.getShard (h : StoreInv st contents) (hk : k ∈ st.db.shards.keys)
    : ∃ content, contents k = some content ∧ st.store.getShard k = .ok (some content) := by
  have hmem : k ∈ st.store.shards.keys := by
    by_cases hdirty : k ∈ st.store.dirtyShards
    . apply h.inStep.flushable hdirty
    . rwa [OrdMap.mem_keys, h.inStep.shards k hdirty, ← OrdMap.mem_keys]
  obtain ⟨content, hcontent⟩ := OrdMap.mem_keys_iff.mp hmem
  refine ⟨content, ?_, ?_⟩
  . rw [← h.latest, hcontent]
  . rw [SparseShardStore.getShard, hcontent]

end Invariant

theorem SparseShardStore.mem_checkpointDelta_add {s : SparseShardStore Shard} {id : Nat}
    : id ∈ s.checkpointDelta.2.keys
        ↔
      id ∈ s.checkpoints.keys ∧ s.checkpoints.get? id ≠ s.dbCheckpoints.get? id := by
  simp [checkpointDelta]

theorem SparseShardStore.mem_checkpointDelta_remove {s : SparseShardStore Shard} {id : Nat}
    : id ∈ s.checkpointDelta.1
        ↔
      id ∈ s.dbCheckpoints.keys ∧ s.checkpoints.get? id ≠ s.dbCheckpoints.get? id := by
  simp [checkpointDelta]

theorem flush_writes_store {policy : Option AnchorRetention} {st : StorePair Shard}
    {contents : Nat → Option Shard} (h : (storeMachine policy).Reachable (st, contents))
    : (∀ st', st.step .flush = some st' → st'.db.shards = st'.store.shards
        ∧ st'.db.cap = st'.store.cap ∧ st'.db.checkpoints = st'.store.checkpoints)
      ∧ st.store.checkpointDelta.1 ⊆ st.db.checkpoints.keys
      ∧ Disjoint st.store.checkpointDelta.2.keys
          (st.db.checkpoints.keys \ st.store.checkpointDelta.1)
      ∧ ∀ k ∈ st.db.shards.keys, ∃ content, contents k = some content
          ∧ st.store.getShard k = .ok (some content) := by
  have hinv := storeInv_of_reach h
  have hsynced := hinv.inStep.synced
  refine ⟨fun st' hstep => (hinv.flush hstep).2, ?_, ?_, fun k => hinv.getShard⟩
  . intro id hid
    rw [← hsynced]
    exact (SparseShardStore.mem_checkpointDelta_remove.mp hid).1
  . rw [Finset.disjoint_left]
    intro id hadd hkept
    rw [Finset.mem_sdiff, SparseShardStore.mem_checkpointDelta_remove, hsynced] at hkept
    rw [SparseShardStore.mem_checkpointDelta_add, hsynced] at hadd
    exact hkept.2 ⟨hkept.1, hadd.2⟩

def reflushed : Option (StorePair Nat × (Nat → Option Nat)) :=
  let db : SqlTree Nat := {
    shards := .ofList [(0, 10)]
    cap := 1
    checkpoints := .ofList [(100, .atPosition 5), (101, .atPosition 6)]
    retained := ∅
  }
  (storeMachine none).run ({ db, store := .seed db none }, db.shards.get?) [
    .putShard 0 11,
    .removeCheckpoint 100,
    .flush,
    .addCheckpoint 100 (.atPosition 5),
    .updateCheckpoint 101 fun cp => ({ cp with marksRemoved := {3} }, .ok ()),
    .putShard 1 12
  ]

theorem flush_writes_store_reflushed
    : ∃ st contents, reflushed = some (st, contents) ∧ contents 0 = some 11
      ∧ (∀ st', st.step .flush = some st' → st'.db.shards = st'.store.shards
        ∧ st'.db.cap = st'.store.cap ∧ st'.db.checkpoints = st'.store.checkpoints)
      ∧ ∃ content, contents 0 = some content ∧ st.store.getShard 0 = .ok (some content) := by
  have hrun : reflushed.any (fun st => decide (st.2 0 = some 11 ∧ 0 ∈ st.1.db.shards.keys)) = true := by
    decide +kernel
  obtain ⟨⟨st, contents⟩, hst, hfound⟩ := (Option.any_eq_true _ _).mp hrun
  obtain ⟨hlatest, hmem⟩ := of_decide_eq_true hfound
  have hwrites := flush_writes_store (Machine.reachable_of_run (.start ⟨rfl, rfl⟩) hst)
  exact ⟨st, contents, hst, hlatest, hwrites.1, hwrites.2.2.2 0 hmem⟩

end Slipstream
