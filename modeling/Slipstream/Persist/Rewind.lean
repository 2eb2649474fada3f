import Slipstream.Graft.Rescans
import Slipstream.Persist.Impl.Rewind
import Slipstream.Persist.Lemmas.Accepts
import Slipstream.Persist.Lemmas.Accounted
import Slipstream.Persist.Lemmas.Trace

/-!
This module contains the verification of the graft buffer's cuts: a rewind drops the rows of the
blocks it gives up and no row of a block that stays scanned.
-/

namespace Slipstream

variable {H B Shard : Type}

def InBlock (size : Nat → Nat) (b p : Nat) : Prop := sizeBefore size b ≤ p ∧ p < size b

structure CutBetween (size : Nat → Nat) (removed kept : Nat → Prop) (before after : PoolBuffer B)
    : Prop where
  dropped : ∀ b k, removed b → InBlock size b k.2 → after.get? k = none
  same : ∀ b k, kept b → InBlock size b k.2 → after.get? k = before.get? k

section Cut

variable {size : Nat → Nat} {removed kept : Nat → Prop} {t : PoolBuffer B}

theorem PoolBuffer.get?_deleteFromPosition (t : PoolBuffer B) (minPosition : Nat) (k : Nat × Nat)
    : (t.deleteFromPosition minPosition).get? k = if k.2 < minPosition then t.get? k else none := by
  rw [deleteFromPosition, OrdMap.get?_filter]
  simp

theorem cutBetween_of_size (hsize : ∀ a b, a ≤ b → size a ≤ size b)
    (hremoved : ∀ b, removed b → c < b) (hkept : ∀ b, kept b → b ≤ c)
    : CutBetween size removed kept t (t.deleteFromPosition (size c)) where
  dropped b k hb hk := by
    have hbelow := (layout_of_chain hsize).next c b trivial trivial (hremoved b hb)
    rw [PoolBuffer.get?_deleteFromPosition, if_neg (Nat.not_lt.mpr (Nat.le_trans hbelow hk.1))]
  same b k hb hk := by
    have habove := hsize b c (hkept b hb)
    rw [PoolBuffer.get?_deleteFromPosition, if_pos (Nat.lt_of_lt_of_le hk.2 habove)]

theorem cutBetween_of_none_kept (hkept : ∀ b, ¬kept b)
    : CutBetween size removed kept t (t.deleteFromPosition 0) where
  dropped b k _ _ := by simp [PoolBuffer.get?_deleteFromPosition]
  same b k hb _ := absurd hb (hkept b)

theorem cutBetween_of_empty (h : t = .empty) : CutBetween size removed kept t t where
  dropped b k _ _ := by
    rw [h]
    rfl
  same _ _ _ _ := rfl

end Cut

section Truncate

variable {up : Upstream H B Shard} {db : WalletDb B Shard} {s s' : WalletSession B Shard}
  {calls : TruncateCalls}

theorem transactionally_error {db db' : σ} {body : σ → Except String (σ × α)}
    (h : transactionally commitError db body = (db', .error e)) : db' = db := by
  unfold transactionally at h
  cases hbody : body db with
  | error e =>
    rw [hbody] at h
    cases h
    rfl
  | ok changed =>
    rw [hbody] at h
    cases commitError <;> cases h
    rfl

theorem transactionally_ok {db db' : σ} {body : σ → Except String (σ × α)}
    (h : transactionally commitError db body = (db', .ok a)) : body db = .ok (db', a) := by
  unfold transactionally at h
  cases hbody : body db with
  | error e =>
    rw [hbody] at h
    cases h
  | ok changed =>
    rw [hbody] at h
    cases commitError <;> cases h
    rfl

def TruncateCalls.sizesLeft (calls : TruncateCalls) (db : WalletDb B Shard) (pool : ShieldedPool)
    : Option Nat :=
  db.scanned.max.bind fun highest => calls.treeSize highest pool

theorem TruncateCalls.sizesLeft_eq (h : db.scanned.max = some highest)
    : calls.sizesLeft db pool = calls.treeSize highest pool := by
  rw [sizesLeft, h]
  rfl

theorem fallible_eq_ok {error : Option String} {a a' : α} (h : fallible error a = .ok a')
    : a' = a := by
  unfold fallible at h
  split at h <;> cases h
  rfl

def PoolBuffer.cut (t : PoolBuffer B) (size : Option Nat) : PoolBuffer B :=
  size.elim t t.deleteFromPosition

def WalletDb.cutPool (db : WalletDb B Shard) (pool : ShieldedPool) (size : Option Nat)
    : WalletDb B Shard :=
  { db with buffer := Function.update db.buffer pool ((db.buffer pool).cut size) }

theorem WalletDb.cutPool_none (db : WalletDb B Shard) (pool : ShieldedPool)
    : db.cutPool pool none = db := by
  simp [cutPool, PoolBuffer.cut]

theorem WalletSession.truncatePools_ok {sizes : ShieldedPool → Option Nat}
    {pools : List ShieldedPool} {wdb : WalletDb B Shard}
    (h : truncatePools calls sizes db pools = .ok wdb)
    : wdb = pools.foldl (fun wdb pool => wdb.cutPool pool (sizes pool)) db := by
  unfold truncatePools at h
  induction pools generalizing db with
  | nil =>
    cases h
    rfl
  | cons pool pools ih =>
    rw [List.foldlM_cons] at h
    obtain ⟨mid, hmid, h⟩ := bind_eq_ok.mp h
    rw [ih h, List.foldl_cons]
    congr 1
    cases hsize : sizes pool with
    | none =>
      rw [hsize] at hmid
      cases hmid
      rw [WalletDb.cutPool_none]
    | some size =>
      rw [hsize] at hmid
      exact fallible_eq_ok hmid

theorem WalletDb.foldl_cutPool_buffer (db : WalletDb B Shard) (sizes : ShieldedPool → Option Nat)
    (pool : ShieldedPool)
    : ([.sapling, .orchard].foldl (fun wdb pool => wdb.cutPool pool (sizes pool)) db).buffer pool
      = (db.buffer pool).cut (if pool = .ironwood then none else sizes pool) := by
  cases pool <;> rfl

theorem WalletDb.truncateToHeight_eq (up : Upstream H B Shard) (db : WalletDb B Shard)
    (height : Nat) (sizes : ShieldedPool → Option Nat)
    : db.truncateToHeight up height sizes
      = [.sapling, .orchard].foldl (fun wdb pool => wdb.cutPool pool
          (if (db.rewind up height).scanned = ∅ then some 0 else sizes pool)) (db.rewind up height) := by
  unfold truncateToHeight
  generalize db.rewind up height = wdb
  have hsizes : ∀ pool, (if wdb.scanned = ∅ then fun _ => some 0 else sizes) pool
      = if wdb.scanned = ∅ then some 0 else sizes pool := by
    intro pool
    split <;> rfl
  dsimp only [List.foldl_cons, List.foldl_nil]
  simp only [← hsizes]
  generalize (if wdb.scanned = ∅ then fun _ => some 0 else sizes) = left
  unfold cutPool
  congr 1
  funext p
  cases p <;> simp only [Function.update_apply] <;> cases left _ <;> rfl

theorem WalletSession.truncateToHeight_ok
    (h : s.truncateToHeight up calls height = (s', .ok truncatedTo))
    : s'.accounts = s.accounts
      ∧ s'.db = s.db.truncateToHeight up truncatedTo (calls.sizesLeft (s.db.rewind up truncatedTo)) := by
  unfold truncateToHeight at h
  generalize hresult : transactionally calls.commitError s.db _ = result at h
  obtain ⟨db, result⟩ := result
  obtain ⟨rfl, hok⟩ := Prod.mk.inj h
  rw [mapError_eq_ok.mp hok] at hresult
  obtain ⟨taken, htaken, hbody⟩ := bind_eq_ok.mp (transactionally_ok hresult)
  obtain ⟨highest, hhighest, hbody⟩ := bind_eq_ok.mp hbody
  obtain ⟨wdb, hpools, hbody⟩ := bind_eq_ok.mp hbody
  cases hbody
  cases fallible_eq_ok hhighest
  refine ⟨rfl, ?_⟩
  rw [WalletDb.truncateToHeight_eq]
  dsimp only
  rw [truncatePools_ok hpools]
  congr 1
  funext wdb pool
  unfold TruncateCalls.sizesLeft
  cases hmax : (s.db.rewind up truncatedTo).scanned.max with
  | bot => rw [if_pos (Finset.max_eq_bot.mp hmax)]
  | coe highest =>
    have hne : (s.db.rewind up truncatedTo).scanned ≠ ∅ := by
      rw [ne_eq, ← Finset.max_eq_bot, hmax]
      exact WithBot.coe_ne_bot
    rw [if_neg hne]
    rfl

theorem WalletSession.truncateToHeight_error
    (h : s.truncateToHeight up calls height = (s', .error e)) : s' = s := by
  unfold truncateToHeight at h
  generalize hresult : transactionally calls.commitError s.db _ = result at h
  obtain ⟨db, result⟩ := result
  obtain ⟨rfl, herror⟩ := Prod.mk.inj h
  cases result with
  | ok truncatedTo => cases herror
  | error e => rw [transactionally_error hresult]

theorem WalletDb.truncateToHeight_buffer (up : Upstream H B Shard) (db : WalletDb B Shard)
    (height : Nat) (sizes : ShieldedPool → Option Nat) (pool : ShieldedPool)
    : (db.truncateToHeight up height sizes).buffer pool
      = (db.buffer pool).cut (if pool = .ironwood then none
          else if (db.rewind up height).scanned = ∅ then some 0 else sizes pool) := by
  rw [truncateToHeight_eq, foldl_cutPool_buffer]
  rfl

variable {size : ShieldedPool → Nat → Nat}

theorem WalletDb.truncateToHeight_cuts (up : Upstream H B Shard) {sizes : ShieldedPool → Option Nat}
    (hsize : ∀ pool a b, a ≤ b → size pool a ≤ size pool b)
    (hironwood : db.buffer .ironwood = .empty)
    (hsizes : ∀ highest, (db.truncateToHeight up height sizes).scanned.max = some highest →
      sizes pool = some (size pool highest))
    : CutBetween (size pool)
        (fun b => b ∈ db.scanned ∧ b ∉ (db.truncateToHeight up height sizes).scanned)
        (· ∈ (db.truncateToHeight up height sizes).scanned)
        (db.buffer pool) ((db.truncateToHeight up height sizes).buffer pool) := by
  have hscanned : (db.truncateToHeight up height sizes).scanned = db.scanned.filter (· ≤ height) := rfl
  rw [truncateToHeight_buffer]
  rw [hscanned] at hsizes ⊢
  split
  . next hpool =>
    rw [hpool]
    exact cutBetween_of_empty hironwood
  . split
    . next hempty =>
      apply cutBetween_of_none_kept
      intro b hb
      exact Finset.notMem_empty b (hempty ▸ hb)
    . next hne =>
      obtain ⟨highest, hmax⟩ := Finset.max_of_nonempty (Finset.nonempty_iff_ne_empty.mpr hne)
      have hhighest := Finset.mem_filter.mp (Finset.mem_of_max hmax)
      rw [hsizes highest hmax]
      apply cutBetween_of_size (hsize pool)
      . rintro b ⟨hb, hgone⟩
        apply Nat.lt_of_le_of_lt hhighest.2
        apply Nat.lt_of_not_le
        intro hle
        exact hgone (Finset.mem_filter.mpr ⟨hb, hle⟩)
      . intro b hb
        exact Finset.le_max_of_eq hb hmax

end Truncate

inductive WalletSession.Imports (up : Upstream H B Shard) (calls : ImportCalls)
    (birthday : AccountBirthday H) (s : WalletSession B Shard)
    : WalletSession B Shard → Except SlipstreamError Unit → Prop where
  | unchanged : Imports up calls birthday s s result
  | added (hdrops : (s.imported up birthday true).dropPools calls
        (perPool (some birthday.saplingFrontier.treeSize) (some birthday.orchardFrontier.treeSize)
          none) [.sapling, .orchard] = (s', result))
      : Imports up calls birthday s s' result
  | interrupted : Imports up calls birthday s (s.imported up birthday true) (.error e)

section Import

variable {up : Upstream H B Shard} {s s' : WalletSession B Shard} {calls : ImportCalls}
  {result : Except SlipstreamError Unit}

theorem WalletSession.dropPools_ok {sizes : ShieldedPool → Option Nat} {pools : List ShieldedPool}
    (h : s.dropPools calls sizes pools = (s', .ok ()))
    : s' = { s with db := pools.foldl (fun db pool => db.cutPool pool (sizes pool)) s.db } := by
  induction pools generalizing s with
  | nil =>
    cases h
    rfl
  | cons pool pools ih =>
    rw [dropPools] at h
    rw [List.foldl_cons]
    cases hsize : sizes pool with
    | none =>
      rw [hsize] at h
      rw [WalletDb.cutPool_none]
      exact ih h
    | some size =>
      rw [hsize] at h
      cases herror : calls.deleteError pool with
      | some e =>
        rw [herror] at h
        cases h
      | none =>
        rw [herror] at h
        exact ih h

theorem WalletSession.dropPools_keeps {sizes : ShieldedPool → Option Nat} {pools : List ShieldedPool}
    (h : s.dropPools calls sizes pools = (s', result))
    : s'.accounts = s.accounts ∧ ∀ pool k, (∀ n, sizes pool = some n → k.2 < n) →
        (s'.db.buffer pool).get? k = (s.db.buffer pool).get? k := by
  induction pools generalizing s with
  | nil =>
    cases h
    exact ⟨rfl, fun _ _ _ => rfl⟩
  | cons first pools ih =>
    rw [dropPools] at h
    cases hsize : sizes first with
    | none =>
      rw [hsize] at h
      exact ih h
    | some size =>
      rw [hsize] at h
      cases herror : calls.deleteError first with
      | some e =>
        rw [herror] at h
        cases h
        exact ⟨rfl, fun _ _ _ => rfl⟩
      | none =>
        rw [herror] at h
        obtain ⟨haccounts, hkeeps⟩ := ih h
        refine ⟨haccounts, ?_⟩
        intro pool k hbelow
        rw [hkeeps pool k hbelow]
        by_cases hpool : pool = first
        . rw [hpool] at hbelow ⊢
          dsimp only [WalletDb.deleteFromPosition]
          rw [Function.update_self, PoolBuffer.get?_deleteFromPosition, if_pos (hbelow size hsize)]
        . dsimp only [WalletDb.deleteFromPosition]
          rw [Function.update_of_ne hpool]

theorem WalletSession.imports_of_import {birthday : AccountBirthday H}
    (h : s.importAccountWithBirthday up calls birthday = (s', result))
    : Imports up calls birthday s s' result := by
  unfold importAccountWithBirthday at h
  dsimp only at h
  split at h
  . cases h
    exact .unchanged
  . cases h
    exact .unchanged
  . next adds _ _ =>
    cases adds with
    | false =>
      split at h
      . cases h
        exact .unchanged
      . have hsame : ¬(imported up birthday false s).accounts > s.accounts := Nat.lt_irrefl _
        rw [if_neg hsame] at h
        cases h
        exact .unchanged
    | true =>
      split at h
      . cases h
        exact .interrupted
      . have hmore : (imported up birthday true s).accounts > s.accounts := Nat.lt_succ_self _
        rw [if_pos hmore] at h
        unfold dropGraftRowsFrom at h
        split at h
        . cases h
          exact .interrupted
        . cases h
          exact .interrupted
        . exact .added h

variable {size : ShieldedPool → Nat → Nat} {birthday : AccountBirthday H}

theorem WalletSession.import_cuts
    (hsize : ∀ pool a b, a ≤ b → size pool a ≤ size pool b)
    (hironwood : s.db.buffer .ironwood = .empty)
    (hbirthday : ∀ pool, (birthday.priorChainState.finalTree pool).treeSize
      = size pool birthday.priorChainState.blockHeight)
    (h : Imports up calls birthday s s' (.ok ())) (hadded : s.accounts < s'.accounts)
    (pool : ShieldedPool)
    : CutBetween (size pool) (birthday.height ≤ ·) (· < birthday.height) (s.db.buffer pool)
        (s'.db.buffer pool) := by
  cases h with
  | unchanged => exact absurd hadded (Nat.lt_irrefl _)
  | added hdrops =>
    rw [dropPools_ok hdrops]
    dsimp only
    rw [WalletDb.foldl_cutPool_buffer]
    have hcut : CutBetween (size pool) (birthday.height ≤ ·) (· < birthday.height)
        (s.db.buffer pool)
        ((s.db.buffer pool).deleteFromPosition (size pool birthday.priorChainState.blockHeight)) :=
      cutBetween_of_size (hsize pool) (fun _ h => h) (fun _ h => Nat.le_of_lt_succ h)
    rw [← hbirthday pool] at hcut
    cases pool with
    | ironwood => exact cutBetween_of_empty hironwood
    | sapling => exact hcut
    | orchard => exact hcut

theorem WalletSession.import_keeps
    (hsize : ∀ pool a b, a ≤ b → size pool a ≤ size pool b)
    (hbirthday : ∀ pool, (birthday.priorChainState.finalTree pool).treeSize
      = size pool birthday.priorChainState.blockHeight)
    (h : Imports up calls birthday s s' result) (hb : b < birthday.height)
    (hk : InBlock (size pool) b k.2)
    : (s'.db.buffer pool).get? k = (s.db.buffer pool).get? k := by
  cases h with
  | unchanged => rfl
  | interrupted => rfl
  | added hdrops =>
    rw [(dropPools_keeps hdrops).2 pool k]
    . rfl
    . intro n hn
      have hsizeAt := hsize pool b _ (Nat.le_of_lt_succ hb)
      rw [← hbirthday pool] at hsizeAt
      apply Nat.lt_of_lt_of_le hk.2
      cases pool <;> cases hn <;> exact hsizeAt

theorem WalletSession.import_unchanged (h : Imports up calls birthday s s' result)
    (hnone : ¬s.accounts < s'.accounts) : s' = s := by
  cases h with
  | unchanged => rfl
  | interrupted => exact absurd (Nat.lt_succ_self _) hnone
  | added hdrops =>
    rw [(dropPools_keeps hdrops).1] at hnone
    exact absurd (Nat.lt_succ_self _) hnone

end Import

section Ironwood

variable [DecidableEq H] {up : Upstream H B Shard} {policy : Option AnchorRetention}
  {s s' : Session H B Shard}

def DurableOp.Appends (pool : ShieldedPool) : DurableOp H Shard → Prop
  | .buffer p (.appendRows _ _) => p = pool
  | _ => False

structure Session.NoIronwood (s : Session H B Shard) : Prop where
  rows : ∀ k, k ∉ (s.db.buffer .ironwood).keys
  todo : ∀ op ∈ s.todo, ¬op.Appends .ironwood

theorem PutBlocks.begin_appends {call : PutBlocks H} {reads : CallReads H} {db : WalletDb B Shard}
    {sparse sparse' : SparseTreeState H Shard}
    (h : call.begin up reads db sparse = .ok (sparse', ops)) (hop : op ∈ ops)
    : ¬op.Appends .ironwood := by
  have hpool : ∀ pool b, pool ≠ .ironwood →
      ¬(DurableOp.buffer pool b : DurableOp H Shard).Appends .ironwood := by
    rintro pool b hne happends
    cases b <;> first | exact hne happends | exact happends
  cases begin_begins h with
  | empty => cases hop
  | plain =>
    cases List.mem_singleton.mp hop
    exact id
  | grafting =>
    rcases mem_planOps.mp hop with ⟨b, -, rfl⟩ | ⟨sp, -, hop⟩ | ⟨e, -, rfl⟩
    . exact hpool _ b (by decide)
    . rcases mem_planOps.mp hop with ⟨b, -, rfl⟩ | ⟨op, -, hop⟩ | ⟨e, -, rfl⟩
      . exact hpool _ b (by decide)
      . rcases List.mem_cons.mp hop with rfl | hop
        . exact id
        . rcases List.mem_append.mp hop with hop | hop
          . obtain ⟨b, -, rfl⟩ := List.mem_map.mp hop
            exact hpool _ b (by decide)
          . obtain ⟨b, -, rfl⟩ := List.mem_map.mp hop
            exact hpool _ b (by decide)
      . exact id
    . exact id

theorem Session.Begun.appends {e : SessionEvent H} (h : Begun policy up s e s') (htodo : s.todo = [])
    (hop : op ∈ s'.todo) : ¬op.Appends .ironwood := by
  cases h with
  | range =>
    rw [htodo] at hop
    cases hop
  | call _ hbegin => exact PutBlocks.begin_appends hbegin hop
  | refused =>
    unfold Session.failed at hop
    split at hop <;> cases hop
  | @finish ctx =>
    dsimp only [finishOps] at hop
    split at hop
    . cases hop
    . rcases List.mem_cons.mp hop with rfl | hop
      . exact id
      . rcases List.mem_append.mp hop with hop | hop <;>
          obtain ⟨_, _, _, _, rfl⟩ := mem_finishCleanup hop <;> exact id
  | sweep =>
    rw [htodo] at hop
    cases hop
  | unswept => cases hop
  | @job pool reads job =>
    dsimp only at hop
    rcases job.ops_cases up reads policy pool (s.sparse.seeded s.db pool) with
      hops | hops | ⟨_, _, _, _, _, _, _, _, hops⟩ <;> rw [hops] at hop
    . cases hop
    . rcases mem_rescanOps hop with ⟨_, rfl⟩ | rfl <;> exact id
    . rcases List.mem_cons.mp hop with rfl | hop
      . exact id
      . cases List.mem_singleton.mp hop
        exact id
  | heal => cases hop
  | truncate => cases hop
  | importAccount =>
    rcases List.mem_cons.mp hop with rfl | hop
    . exact id
    . cases List.mem_singleton.mp hop
      exact id

theorem Session.Begun.keys {e : SessionEvent H} (h : Begun policy up s e s')
    (hk : k ∈ (s'.db.buffer pool).keys) : k ∈ (s.db.buffer pool).keys := by
  cases h with
  | refused =>
    unfold Session.failed at hk
    split at hk <;> exact hk
  | truncate => exact (WalletDb.mem_truncateToHeight.mp hk).1
  | _ => exact hk

omit [DecidableEq H] in
theorem Session.NoIronwood.failed (h : s.NoIronwood) : (s.failed policy).NoIronwood := by
  unfold Session.failed
  split <;> exact ⟨h.rows, by simp [atRest]⟩

theorem Session.NoIronwood.step {e : SessionEvent H} (h : s.NoIronwood)
    (hstep : Session.step policy up s e = some s') : s'.NoIronwood := by
  rcases begun_of_step hstep with rfl | ⟨rfl, rfl⟩ | ⟨rfl, rfl⟩ | ⟨htodo, hbegun⟩
  . unfold Session.step at hstep
    cases htodo : s.todo with
    | nil =>
      rw [htodo] at hstep
      cases hstep
    | cons op rest =>
      simp only [htodo] at hstep
      have hspared := h.todo op (by simp [htodo])
      cases hexec : op.exec up s.db s.sparse with
      | error e =>
        rw [hexec] at hstep
        cases hstep
        exact h.failed
      | ok res =>
        rw [hexec] at hstep
        cases hstep
        constructor
        case rows =>
          intro k hk
          rcases exec_keys hexec hk with hk | ⟨_, hmem, _, hop, -⟩
          . exact h.rows k hk
          . cases List.mem_singleton.mp hmem
            rw [show op = _ from hop] at hspared
            exact hspared rfl
        case todo => exact fun op hop => h.todo op (by simp [htodo, hop])
  . exact h.failed
  . exact ⟨h.rows, by simp [atRest]⟩
  . exact ⟨fun k hk => h.rows k (hbegun.keys hk), fun op hop => hbegun.appends htodo hop⟩

theorem ironwood_never_buffered {db : WalletDb B Shard} (hdb : db.buffer .ironwood = .empty)
    (h : (sessionMachine up policy).run (.atRest policy db) events = some s)
    : s.db.buffer .ironwood = .empty := by
  have hnone : s.NoIronwood := by
    apply Machine.run_induction (P := fun _ s => s.NoIronwood) _ _ h
    . refine ⟨fun k hk => ?_, by simp [Session.atRest]⟩
      rw [show (Session.atRest policy db : Session H B Shard).db.buffer .ironwood = _ from hdb] at hk
      exact Finset.notMem_empty k hk
    . intro _ s e s' hs hstep
      exact hs.step hstep
  apply OrdMap.ext_get?
  intro k
  rw [OrdMap.get?_eq_none (hnone.rows k)]
  rfl

theorem ironwood_never_buffered_bufferedCall
    : ∃ s, (sessionMachine (.bare Nat) none).run (.atRest none (.fresh Nat))
          [.beginRange (some 0), .putBlocks .none bufferedCall, .proceed] = some s
        ∧ s.db.buffer .ironwood = .empty ∧ s.db.buffer .sapling ≠ .empty := by
  have hrun : ((sessionMachine (.bare Nat) none).run (.atRest none (.fresh Nat))
      [.beginRange (some 0), .putBlocks .none bufferedCall, .proceed]).any
        (fun s => decide ((0, 5) ∈ (s.db.buffer .sapling).keys)) = true := by
    decide +kernel
  obtain ⟨s, hs, hsapling⟩ := (Option.any_eq_true _ _).mp hrun
  refine ⟨s, hs, ironwood_never_buffered rfl hs, ?_⟩
  intro hempty
  rw [hempty] at hsapling
  cases hsapling

end Ironwood

theorem rewinds_cut_buffer (up : Upstream H B Shard) {size : ShieldedPool → Nat → Nat}
    (hsize : ∀ pool a b, a ≤ b → size pool a ≤ size pool b) (s : WalletSession B Shard)
    (hironwood : s.db.buffer .ironwood = .empty)
    : (∀ (calls : TruncateCalls) (height : Nat) (s' : WalletSession B Shard)
          (result : Except SlipstreamError Nat),
        (∀ b ∈ s.db.scanned, ∀ pool n, calls.treeSize b pool = some n → n = size pool b) →
        s.truncateToHeight up calls height = (s', result) →
          (∀ truncatedTo, result = .ok truncatedTo →
            s'.db.scanned = s.db.scanned.filter (· ≤ truncatedTo)
            ∧ ∀ pool,
              ((∀ highest, s'.db.scanned.max = some highest → calls.treeSize highest pool ≠ none) →
                CutBetween (size pool) (fun b => b ∈ s.db.scanned ∧ b ∉ s'.db.scanned)
                  (· ∈ s'.db.scanned) (s.db.buffer pool) (s'.db.buffer pool))
              ∧ ∀ highest, s'.db.scanned.max = some highest → calls.treeSize highest pool = none →
                s'.db.buffer pool = s.db.buffer pool)
          ∧ ∀ e, result = .error e → s' = s)
      ∧ ∀ (calls : ImportCalls) (birthday : AccountBirthday H) (s' : WalletSession B Shard)
          (result : Except SlipstreamError Unit),
        (∀ pool, (birthday.priorChainState.finalTree pool).treeSize
          = size pool birthday.priorChainState.blockHeight) →
        s.importAccountWithBirthday up calls birthday = (s', result) →
          (result = .ok () → s.accounts < s'.accounts → ∀ pool,
            CutBetween (size pool) (birthday.height ≤ ·) (· < birthday.height) (s.db.buffer pool)
              (s'.db.buffer pool))
          ∧ (¬s.accounts < s'.accounts → s'.db.buffer = s.db.buffer)
          -- An import that fails halfway drops no row of a lower block either.
          ∧ ∀ pool b k, b < birthday.height → InBlock (size pool) b k.2 →
            (s'.db.buffer pool).get? k = (s.db.buffer pool).get? k := by
  constructor
  . intro calls height s' result hrecords h
    constructor
    . rintro truncatedTo rfl
      obtain ⟨-, hdb⟩ := WalletSession.truncateToHeight_ok h
      rw [hdb]
      have hleft : ∀ pool highest, (s.db.rewind up truncatedTo).scanned.max = some highest →
          calls.sizesLeft (s.db.rewind up truncatedTo) pool = calls.treeSize highest pool :=
        fun _ _ hmax => TruncateCalls.sizesLeft_eq hmax
      refine ⟨rfl, fun pool => ⟨fun hrecorded => ?_, ?_⟩⟩
      . apply WalletDb.truncateToHeight_cuts up hsize hironwood
        intro highest hmax
        have hmem := (Finset.mem_filter.mp (Finset.mem_of_max hmax)).1
        obtain ⟨n, hn⟩ := Option.ne_none_iff_exists'.mp (hrecorded highest hmax)
        rw [hleft pool highest hmax, hn, hrecords highest hmem pool n hn]
      . intro highest hmax hnone
        rw [WalletDb.truncateToHeight_buffer, hleft pool highest hmax, hnone]
        have hne : (s.db.rewind up truncatedTo).scanned ≠ ∅ :=
          Finset.ne_empty_of_mem (Finset.mem_of_max hmax)
        rw [if_neg hne, ite_self]
        rfl
    . rintro e rfl
      exact WalletSession.truncateToHeight_error h
  . intro calls birthday s' result hbirthday h
    have himports := WalletSession.imports_of_import h
    refine ⟨?_, ?_, ?_⟩
    . rintro rfl hadded pool
      exact WalletSession.import_cuts hsize hironwood hbirthday himports hadded pool
    . intro hnone
      rw [WalletSession.import_unchanged himports hnone]
    . intro pool b k hb hk
      exact WalletSession.import_keeps hsize hbirthday himports hb hk

def WalletSession.twoBlocks : WalletSession Nat Unit where
  db := { WalletDb.fresh Nat with
    buffer := perPool (OrdMap.ofList [((0, 1), buffered 7), ((0, 4), buffered 8)]) .empty .empty
    scanned := {0, 1} }
  accounts := 1
where
  buffered (commitment : Nat) : StoredRow Nat :=
    { commitment, retentionKind := 0, checkpointHeight := none, marking := none }

def TruncateCalls.faithful : TruncateCalls where
  truncateTo height := .ok height
  treeSize b _ := some (3 * (b + 1))
  maxScannedError := none
  deleteError _ := none
  commitError := none

def ImportCalls.adding : ImportCalls where
  accountsError := none
  importAccountUfvk := .ok true
  recountError := none
  openError := none
  busyTimeoutError := none
  deleteError _ := none

def AccountBirthday.second : AccountBirthday Nat where
  priorChainState := {
    blockHeight := 0
    finalTree := fun _ => { value := some { position := 2, leaf := 0, ommers := [] } } }

open WalletSession in
theorem rewinds_cut_buffer_twoBlocks
    : ((twoBlocks.truncateToHeight (.bare Nat) .faithful 0).1.db.buffer .sapling).get? (0, 4) = none
      ∧ ((twoBlocks.importAccountWithBirthday (.bare Nat) .adding .second).1.db.buffer
          .sapling).get? (0, 4) = none := by
  have hsize : ∀ (_ : ShieldedPool) (a b : Nat), a ≤ b → 3 * (a + 1) ≤ 3 * (b + 1) := by
    intro _ a b h
    omega
  have hrow : InBlock (fun b => 3 * (b + 1)) 1 4 := ⟨by decide, by decide⟩
  obtain ⟨htruncate, himport⟩ := rewinds_cut_buffer (.bare Nat) hsize twoBlocks rfl
  constructor
  . have hrecords : ∀ b ∈ twoBlocks.db.scanned, ∀ pool n,
        TruncateCalls.faithful.treeSize b pool = some n → n = 3 * (b + 1) :=
      fun _ _ _ _ h => (Option.some.inj h).symm
    obtain ⟨hok, -⟩ := htruncate .faithful 0 _ _ hrecords rfl
    have hcut := ((hok 0 rfl).2 .sapling).1 (by simp [TruncateCalls.faithful])
    exact hcut.dropped 1 (0, 4) (by decide +kernel) hrow
  . obtain ⟨hok, -⟩ := himport .adding .second _ _ (fun _ => rfl) rfl
    exact (hok rfl (by decide +kernel) .sapling).dropped 1 (0, 4) (by decide) hrow

end Slipstream
