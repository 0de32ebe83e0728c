import LightGraph.Proof.Chains
import LightGraph.Proof.Recovery

/-!
# The log of an unlink

An unlink changes a predecessor in memory first and logs it afterwards; in between, memory is ahead
of the log at a few edges (`Ahead`). When the call returns it is ahead at none: every call of the
edge store that returns has logged what it changed (`performCall_logs`).
-/

set_option autoImplicit false

namespace LightGraph

open Lib

/-! ## Memory ahead of the log -/

namespace EdgeStore

section Persistent
variable [Bincode Edge]

/-- From `s` to `t` these commands were sent, and they make up for what happened to the records,
but for those of `ids`. -/
structure Ahead (ids : List EdgeId) (s t : EdgeStore) (cmds : List WalCmd) : Prop where
  wal : ∃ w, s.wal = some w ∧ t.wal = some { w with sent := w.sent ++ cmds }
  recorded : ∀ cmd ∈ cmds, cmd.record?.isSome = true
  records : ∀ x ∉ ids,
    t.records.get x = ((LightGraph.records cmds).foldl applyRecord s.records).get x

variable {s t u : EdgeStore} {ids : List EdgeId} {cmds : List WalCmd}

theorem Ahead.refl {w : WalLog} (hwal : s.wal = some w) : Ahead [] s s [] :=
  ⟨(RecordStore.Logs.refl hwal).wal, fun _ hcmd => absurd hcmd List.not_mem_nil, fun _ _ => rfl⟩

theorem Ahead.logs (h : Ahead [] s t cmds) : RecordStore.Logs s t cmds :=
  ⟨h.wal, FiniteMap.ext fun x => h.records x List.not_mem_nil, h.recorded⟩

omit [Bincode Edge] in
theorem modifySilently_wal (s : EdgeStore) (id : EdgeId) (f : Edge → Edge) :
    (s.modifySilently id f).wal = s.wal := by
  unfold modifySilently
  split <;> rfl

theorem Ahead.modifySilently (h : Ahead ids s t cmds) (id : EdgeId) (f : Edge → Edge) :
    Ahead (id :: ids) s (t.modifySilently id f) cmds := by
  refine ⟨?_, h.recorded, fun x hx => ?_⟩
  · rw [modifySilently_wal]
    exact h.wal
  · obtain ⟨hne, hnot⟩ : x ≠ id ∧ x ∉ ids := by simpa using hx
    rw [modifySilently_records, FiniteMap.get_alter, if_neg hne]
    exact h.records x hnot

/-- Logging an edge makes up for it. -/
theorem Ahead.persist (h : Ahead ids s t cmds) {id : EdgeId} {e : Edge}
    (hget : t.records.get id = some e) :
    Ahead (ids.filter (· ≠ id)) s (t.persist id) (cmds ++ [.insert id (Bincode.bytes e)]) := by
  obtain ⟨w, hs, ht⟩ := h.wal
  have hpersist : t.persist id = t.walInsert id e := by
    unfold EdgeStore.persist
    simp only [hget]
  refine ⟨⟨w, hs, ?_⟩, ?_, fun x hx => ?_⟩
  · rw [hpersist, RecordStore.walInsert_eq ht]
    simp [WalLog.send]
  · exact List.forall_mem_append.mpr ⟨h.recorded, by simp [WalCmd.record?]⟩
  · have hput : ∀ m : FiniteMap UInt64 Edge,
        (LightGraph.records [.insert id (Bincode.bytes e)]).foldl applyRecord m = m.put id e :=
      fun m => applyRecord_insert m id e
    rw [persist_records, records_append, List.foldl_append, hput, FiniteMap.get_put]
    split
    · rename_i heq
      rw [heq, hget]
    · rename_i hne
      refine h.records x fun hmem => hx ?_
      exact List.mem_filter.mpr ⟨hmem, by simpa using hne⟩

/-- A predecessor, if there is one, is logged by one record. -/
theorem Ahead.persistPred (h : Ahead ids s t cmds) {pred : Option EdgeId}
    (hpresent : ∀ p, pred = some p → (t.records.get p).isSome = true) :
    ∃ more, more.length = pred.toList.length ∧
      Ahead (ids.filter fun x => pred ≠ some x) s (t.persistPred pred) (cmds ++ more) := by
  cases pred with
  | none =>
    have hall : ids.filter (fun x => (none : Option EdgeId) ≠ some x) = ids := by simp
    refine ⟨[], rfl, ?_⟩
    rw [hall, List.append_nil]
    exact h
  | some p =>
    obtain ⟨e, he⟩ := Option.isSome_iff_exists.mp (hpresent p rfl)
    have hsame : ids.filter (fun x => some p ≠ some x) = ids.filter (· ≠ p) := by
      refine List.filter_congr fun x _ => ?_
      simp [eq_comm]
    rw [hsame]
    exact ⟨_, rfl, h.persist he⟩

end Persistent

/-! ## One unlink -/

/-- An unlink finds a predecessor of the edge in this chain. -/
def HasPred (side : ChainSide) (s : EdgeStore) (edgeId head : EdgeId) : Prop :=
  head ≠ edgeId ∧ ∃ p, s.findPred side edgeId s.rounds head = some (some p)

/-- What is done to the other chain does not matter to the search. -/
theorem SameBut.hasPred {side other : ChainSide} {s t : EdgeStore} (h : SameBut side s t)
    (hne : other ≠ side) (edgeId head : EdgeId) :
    HasPred other t edgeId head ↔ HasPred other s edgeId head := by
  have hfollow : follow other t.records = follow other s.records :=
    funext fun id => follow_congr (h.next other hne id)
  have hkeys : t.records.keys = s.records.keys := by
    ext id
    rw [FiniteMap.mem_keys_iff, FiniteMap.mem_keys_iff, ← Option.isSome_iff_exists,
      ← Option.isSome_iff_exists, isSome_of_node (h.node other id)]
  rw [HasPred, HasPred, rounds, rounds, findPred_eq, findPred_eq, hfollow, hkeys]

/-- The predecessor returned is the one found and changed. -/
theorem unlinkFrom_pred {side : ChainSide} {s t : EdgeStore} {edgeId next head head' : EdgeId}
    {pred : Option EdgeId} (h : s.unlinkFrom side edgeId next head = some (t, head', pred)) :
    (t = s ∧ pred = none ∧ ¬ HasPred side s edgeId head) ∨
    ∃ p, pred = some p ∧ HasPred side s edgeId head ∧ (s.records.get p).isSome = true ∧
      t = s.modifySilently p (side.setNext next) := by
  unfold unlinkFrom at h
  split at h
  · rename_i hhead
    simp only [Option.some.injEq, Prod.mk.injEq] at h
    exact Or.inl ⟨h.1.symm, h.2.2.symm, fun hpred => hpred.1 hhead⟩
  · rename_i hhead
    split at h
    · exact absurd h (by simp)
    · rename_i hp
      simp only [Option.some.injEq, Prod.mk.injEq] at h
      refine Or.inl ⟨h.1.symm, h.2.2.symm, ?_⟩
      rintro ⟨-, p, hpred⟩
      rw [hp] at hpred
      simp at hpred
    · rename_i p hp
      simp only [Option.some.injEq, Prod.mk.injEq] at h
      have hfound := hp
      rw [findPred_eq] at hp
      obtain ⟨-, e, he, -⟩ := follow_inv (follows_of_seek hp)
      exact Or.inr ⟨p, h.2.2.symm, ⟨hhead, p, hfound⟩, by rw [he]; rfl, h.1.symm⟩

theorem unlinkFrom_pred_iff {side : ChainSide} {s t : EdgeStore} {edgeId next head head' : EdgeId}
    {pred : Option EdgeId} (h : s.unlinkFrom side edgeId next head = some (t, head', pred)) :
    pred.toList.length = 0 ↔ ¬ HasPred side s edgeId head := by
  rcases unlinkFrom_pred h with ⟨-, rfl, hnot⟩ | ⟨p, rfl, hpred, -⟩
  · exact iff_of_true rfl hnot
  · exact iff_of_false (by simp) (not_not_intro hpred)

section Persistent
variable [Bincode Edge]

theorem Ahead.unlinkFrom {side : ChainSide} {s t u : EdgeStore} {ids : List EdgeId}
    {cmds : List WalCmd} (h : Ahead ids s t cmds) {edgeId next head head' : EdgeId}
    {pred : Option EdgeId} (hrun : t.unlinkFrom side edgeId next head = some (u, head', pred)) :
    Ahead (pred.toList ++ ids) s u cmds ∧
      ∀ p, pred = some p → (u.records.get p).isSome = true := by
  rcases unlinkFrom_pred hrun with ⟨rfl, rfl, -⟩ | ⟨p, rfl, -, hpresent, rfl⟩
  · exact ⟨h, fun p hp => absurd hp (by simp)⟩
  · refine ⟨h.modifySilently p _, fun q hq => ?_⟩
    obtain rfl := Option.some.inj hq
    rw [modifySilently_records, FiniteMap.get_alter, if_pos rfl, Option.isSome_map]
    exact hpresent

/-- An unlink that sends no record: the edge is not there, or has no predecessor. -/
def UnlinkSilent (s : EdgeStore) (edgeId srcFirstOut dstFirstIn : EdgeId) : Prop :=
  s.records.get edgeId = none ∨
    ¬ HasPred .outgoing s edgeId srcFirstOut ∧ ¬ HasPred .incoming s edgeId dstFirstIn

/-- **What an unlink changes it logs.** -/
theorem unlinkFromChains_logs {s t : EdgeStore} {w : WalLog} (hwal : s.wal = some w)
    {edgeId srcFirstOut dstFirstIn head head' : EdgeId} {found : Bool}
    (hrun : s.unlinkFromChains edgeId srcFirstOut dstFirstIn = some (t, head, head', found)) :
    ∃ cmds, RecordStore.Logs s t cmds ∧
      (cmds = [] ↔ UnlinkSilent s edgeId srcFirstOut dstFirstIn) := by
  unfold unlinkFromChains at hrun
  split at hrun
  · rename_i hnone
    simp only [Option.some.injEq, Prod.mk.injEq] at hrun
    exact ⟨[], hrun.1 ▸ RecordStore.Logs.refl hwal, iff_of_true rfl (Or.inl hnone)⟩
  · rename_i edge hedge
    split at hrun
    · exact absurd hrun (by simp)
    · rename_i s₁ head₁ srcPred hout
      split at hrun
      · exact absurd hrun (by simp)
      · rename_i s₂ head₂ dstPred hin
        simp only [Option.some.injEq, Prod.mk.injEq] at hrun
        obtain ⟨rfl, -⟩ := hrun
        obtain ⟨hfirst, hsrc⟩ := (Ahead.refl hwal).unlinkFrom hout
        obtain ⟨hsecond, hdst⟩ := hfirst.unlinkFrom hin
        have hsrc' : ∀ p, srcPred = some p → (s₂.records.get p).isSome = true := fun p hp =>
          (isSome_of_node ((unlinkFrom_sameBut hin).node .outgoing p)).trans (hsrc p hp)
        -- first the one predecessor is logged, then the other
        obtain ⟨more₁, hlen₁, hone⟩ := hsecond.persistPred hsrc'
        have hdst' : ∀ p, dstPred = some p →
            ((s₂.persistPred srcPred).records.get p).isSome = true := by
          rw [persistPred_records]
          exact hdst
        obtain ⟨more₂, hlen₂, htwo⟩ := hone.persistPred hdst'
        have hnone : ((dstPred.toList ++ (srcPred.toList ++ [])).filter
            (fun x => srcPred ≠ some x)).filter (fun x => dstPred ≠ some x) = [] := by
          rw [List.filter_filter, List.filter_eq_nil_iff]
          intro x hx
          simp only [List.mem_append, Option.mem_toList, List.append_nil] at hx
          rcases hx with hx | hx
          · simp [hx]
          · simp [hx]
        rw [hnone] at htwo
        refine ⟨_, htwo.logs, ?_⟩
        rw [UnlinkSilent, or_iff_right (by rw [hedge]; simp), ← unlinkFrom_pred_iff hout,
          ← (unlinkFrom_sameBut hout).hasPred (by decide), ← unlinkFrom_pred_iff hin,
          List.nil_append, List.append_eq_nil_iff, ← hlen₁, ← hlen₂, List.length_eq_zero_iff,
          List.length_eq_zero_iff]

/-- **Every call that returns** has logged what it changed. -/
theorem performCall_logs {s t : EdgeStore} {w : WalLog} (hwal : s.wal = some w) {c : EdgeCall}
    (hrun : s.performCall c = some t) : ∃ cmds, RecordStore.Logs s t cmds := by
  cases c with
  | op o =>
    obtain ⟨cmds, -, hlogs⟩ := EdgeStore.perform_logs hwal o
    exact ⟨cmds, Option.some.inj hrun ▸ hlogs⟩
  | unlinkFromChains edgeId srcFirstOut dstFirstIn =>
    obtain ⟨⟨u, head, head', found⟩, hunlink, rfl⟩ := Option.map_eq_some_iff.mp hrun
    obtain ⟨cmds, hlogs, -⟩ := unlinkFromChains_logs hwal hunlink
    exact ⟨cmds, hlogs⟩

/-- **A sequence of calls that return** has logged what it changed. -/
theorem performCalls_logs (calls : List EdgeCall) : ∀ {s t : EdgeStore} {w : WalLog},
    s.wal = some w → calls.foldlM EdgeStore.performCall s = some t →
    ∃ cmds, RecordStore.Logs s t cmds := by
  induction calls with
  | nil =>
    intro s t w hwal hrun
    obtain rfl := Option.some.inj hrun
    exact ⟨[], RecordStore.Logs.refl hwal⟩
  | cons c calls ih =>
    intro s t w hwal hrun
    obtain ⟨u, hu, hrest⟩ := Option.bind_eq_some_iff.mp hrun
    obtain ⟨cs, hcall⟩ := performCall_logs hwal hu
    obtain ⟨w', hw'⟩ := hcall.isSome
    obtain ⟨ds, hmore⟩ := ih hw' hrest
    exact ⟨cs ++ ds, hcall.trans hmore⟩

end Persistent
end EdgeStore

end LightGraph
