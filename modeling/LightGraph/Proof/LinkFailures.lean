import LightGraph.Proof.Chains
import LightGraph.Proof.Recovery

/-!
# Linking and unlinking when something goes wrong

An edge is in two chains, and `unlink_from_chains` leads two predecessors past it. It logs them one
behind the other, each in a record of its own, and nothing in the log says that the two belong
together: a crash between them takes the edge out of one chain and leaves it in the other. Only
where one edge is the predecessor in both chains are both pointers in one record.

The heads are the caller's. `link_into_chains` changes the edge where there is one, and moves the
heads where there is none as well; `unlink_from_chains` looks first.
-/

set_option autoImplicit false

namespace LightGraph

open Lib

namespace EdgeStore

/-! ## A crash between the two records -/

/-- The edge is reached from both heads, or from neither. -/
def InBothOrNeither (s : EdgeStore) (edgeId srcFirstOut dstFirstIn : EdgeId) : Prop :=
  ∃ outgoing incoming, s.outEdges srcFirstOut = some outgoing ∧
    s.inEdges dstFirstIn = some incoming ∧ (edgeId ∈ outgoing ↔ edgeId ∈ incoming)

section Heaps
variable {s u : EdgeStore} {side : ChainSide} {e p head next : EdgeId} {a b : List EdgeId}

/-- The edge is reached unless its predecessor leads past it. -/
theorem reached_iff (h : Segment (follow side s.records) head (a ++ p :: e :: b) nullEdge)
    (hnext : follow side s.records e = some next) {past : Prop}
    (hpast : past → follow side u.records
      = Function.update (follow side s.records) p (some next))
    (hsame : ¬ past → follow side u.records = follow side s.records) :
    ∃ l, u.collect side.next (fun _ => true) u.rounds head = some l ∧ (e ∈ l ↔ ¬ past) := by
  have hnodup := h.nodup (follow_null side s.records)
  by_cases hp : past
  · have hrest := h.remove hnodup hnext
    rw [← hpast hp] at hrest
    refine ⟨_, collect_all (hrest.walk_eq (follow_null side u.records)), ?_⟩
    rw [List.nodup_append, List.nodup_cons, List.nodup_cons] at hnodup
    refine iff_of_false (fun hmem => ?_) (not_not_intro hp)
    rcases List.mem_append.mp hmem with hmem | hmem
    · exact hnodup.2.2 e hmem e (List.mem_cons_of_mem p List.mem_cons_self) rfl
    · rcases List.mem_cons.mp hmem with rfl | hmem
      · exact hnodup.2.1.1 List.mem_cons_self
      · exact hnodup.2.1.2.1 hmem
  · rw [← hsame hp] at h
    exact ⟨_, collect_all (h.walk_eq (follow_null side u.records)), iff_of_true (by simp) hp⟩

/-- A record that leaves the pointer of this side. -/
theorem follow_put_same {edges : FiniteMap EdgeId Edge} {r : Edge}
    (h : follow side edges p = some (side.next r)) :
    follow side (edges.put p r) = follow side edges := by
  rw [follow_put (follow_inv h).1, ← h, Function.update_eq_self]

end Heaps

section Persistent
variable [Bincode Edge] {s : EdgeStore} {w : WalLog} {e p p' srcFirstOut dstFirstIn : EdgeId}
  {edge : Edge} {a b a' b' : List EdgeId}

omit [Bincode Edge] in
theorem modifySilently_eq {id : EdgeId} {r : Edge} (hget : s.records.get id = some r)
    (f : Edge → Edge) : s.modifySilently id f = { s with records := s.records.put id (f r) } := by
  simp only [modifySilently, hget]

theorem persist_eq (hwal : s.wal = some w) {id : EdgeId} {r : Edge}
    (hget : s.records.get id = some r) :
    s.persist id = { s with wal := some (w.send (.insert id (Bincode.bytes r))) } := by
  simp only [persist, hget]
  exact RecordStore.walInsert_eq hwal id r

/-- What the two records say of the chains: `r` is logged for the predecessor in the outgoing chain,
`r'` for the one in the incoming chain. -/
structure Relinks (s : EdgeStore) (edge : Edge) (p p' : EdgeId) (r r' : Edge) : Prop where
  outgoing : r.nextOut = edge.nextOut
  incoming : r'.nextIn = edge.nextIn
  apart : p ≠ p' → follow .incoming s.records p = some r.nextIn ∧
    follow .outgoing s.records p' = some r'.nextOut
  same : p = p' → r = r'

/-- **Unlinking an edge that is inside both chains** keeps the heads and sends two records. -/
theorem unlinkFromChains_inside (hwal : s.wal = some w) (hget : s.records.get e = some edge)
    (hout : Segment (follow .outgoing s.records) srcFirstOut (a ++ p :: e :: b) nullEdge)
    (hin : Segment (follow .incoming s.records) dstFirstIn (a' ++ p' :: e :: b') nullEdge) :
    ∃ t r r', s.unlinkFromChains e srcFirstOut dstFirstIn
        = some (t, srcFirstOut, dstFirstIn, true) ∧
      s.Logs t [.insert p (Bincode.bytes r), .insert p' (Bincode.bytes r')] ∧
      Relinks s edge p p' r r' := by
  obtain ⟨hrun, hpred⟩ := unlinkFrom_middle edge.nextOut hout
  obtain ⟨hpnull, pe, hpe, -⟩ := follow_inv hpred
  have hin' := hin.congr fun x _ =>
    follow_congr ((unlinkFrom_sameBut hrun).next .incoming (by decide) x)
  rw [modifySilently_eq hpe] at hrun hin'
  obtain ⟨hrun', hpred'⟩ := unlinkFrom_middle edge.nextIn hin'
  obtain ⟨hpnull', pe', hpe', -⟩ := follow_inv hpred'
  rw [modifySilently_eq hpe'] at hrun'
  generalize hu : ({ s with
      records := (s.records.put p (ChainSide.outgoing.setNext edge.nextOut pe)).put p'
        (ChainSide.incoming.setNext edge.nextIn pe') } : EdgeStore) = u at hrun'
  have huwal : u.wal = some w := by rw [← hu, hwal]
  have hurecords : u.records = (s.records.put p { pe with nextOut := edge.nextOut }).put p'
      { pe' with nextIn := edge.nextIn } := by
    rw [← hu]
    rfl
  have hget' : u.records.get p' = some { pe' with nextIn := edge.nextIn } := by
    rw [hurecords, FiniteMap.get_put_self]
  -- what is logged for the first predecessor is what stands there in the end
  obtain ⟨r, hr, hrelinks, hreplayed⟩ : ∃ r, u.records.get p = some r ∧
      Relinks s edge p p' r { pe' with nextIn := edge.nextIn } ∧
      u.records = (s.records.put p r).put p' { pe' with nextIn := edge.nextIn } := by
    by_cases hpp : p = p'
    · subst hpp
      obtain rfl := Option.some.inj ((FiniteMap.get_put_self _ _ _).symm.trans hpe')
      refine ⟨_, hget', ⟨rfl, rfl, fun hne => absurd rfl hne, fun _ => rfl⟩, ?_⟩
      rw [hurecords, FiniteMap.put_put_self, FiniteMap.put_put_self]
    · have hpe'' : s.records.get p' = some pe' := by
        rw [← hpe']
        exact (FiniteMap.get_put_ne _ _ (Ne.symm hpp)).symm
      refine ⟨{ pe with nextOut := edge.nextOut }, ?_,
        ⟨rfl, rfl, fun _ => ⟨?_, ?_⟩, fun heq => absurd heq hpp⟩, hurecords⟩
      · rw [hurecords, FiniteMap.get_put_ne _ _ hpp, FiniteMap.get_put_self]
      · exact (follow_of_get hpnull hpe).trans rfl
      · exact (follow_of_get hpnull' hpe'').trans rfl
  have hwal' : (persist u p).wal = some (w.send (.insert p (Bincode.bytes r))) := by
    rw [persist_eq huwal hr]
  refine ⟨persist (persist u p) p', r, _, ?_, ?_, hrelinks⟩
  · simp only [unlinkFromChains, hget, hrun, hrun']
    rfl
  · refine ⟨⟨w, hwal, ?_⟩, ?_, by simp [WalCmd.record?]⟩
    · rw [persist_eq hwal' (by rw [persist_records]; exact hget')]
      exact congrArg (fun sent => some { w with sent }) (List.append_assoc w.sent [_] [_])
    · have hfirst : applyRecord s.records ⟨1, p, Bincode.bytes r⟩ = s.records.put p r :=
        applyRecord_insert _ _ _
      rw [persist_records, persist_records, hreplayed, ← applyRecord_insert, ← hfirst]
      rfl

omit [Bincode Edge] in
/-- The outgoing chain with the first record, whether or not the second is there too. -/
theorem Relinks.follow_outgoing {r r' : Edge} (h : Relinks s edge p p' r r') (hp : p ≠ nullEdge) :
    follow .outgoing (s.records.put p r)
        = Function.update (follow .outgoing s.records) p (some edge.nextOut) ∧
      follow .outgoing ((s.records.put p r).put p' r')
        = Function.update (follow .outgoing s.records) p (some edge.nextOut) := by
  have hone : follow .outgoing (s.records.put p r)
      = Function.update (follow .outgoing s.records) p (some edge.nextOut) := by
    rw [follow_put hp, ← h.outgoing]
    rfl
  refine ⟨hone, ?_⟩
  by_cases hpp : p = p'
  · obtain rfl := h.same hpp
    rw [← hpp, FiniteMap.put_put_self, hone]
  · rw [follow_put_same, hone]
    rw [hone, Function.update_of_ne (Ne.symm hpp)]
    exact (h.apart hpp).2

omit [Bincode Edge] in
theorem Relinks.follow_incoming {r r' : Edge} (h : Relinks s edge p p' r r') (hp : p ≠ nullEdge)
    (hp' : p' ≠ nullEdge) :
    follow .incoming (s.records.put p r) = (if p = p' then
        Function.update (follow .incoming s.records) p' (some edge.nextIn)
      else follow .incoming s.records) ∧
      follow .incoming ((s.records.put p r).put p' r')
        = Function.update (follow .incoming s.records) p' (some edge.nextIn) := by
  by_cases hpp : p = p'
  · obtain rfl := h.same hpp
    subst hpp
    rw [if_pos rfl, FiniteMap.put_put_self, follow_put hp, ← h.incoming]
    exact ⟨rfl, rfl⟩
  · have hone : follow .incoming (s.records.put p r) = follow .incoming s.records :=
      follow_put_same (h.apart hpp).1
    rw [if_neg hpp, follow_put hp', hone, ← h.incoming]
    exact ⟨rfl, rfl⟩

/-- Opening the log of a store with further records behind it. -/
theorem open_behind {log new : List LogRecord} (hsync : RecordStore.Synced log s)
    (hfit : ∀ r ∈ log ++ s.history, r.Fits) (hnew : ∀ r ∈ new, r.Fits) :
    ∃ u, EdgeStore.open (s.file ++ encodeRecords new) = .ok u ∧
      u.records = new.foldl applyRecord s.records := by
  have hfits : ∀ r ∈ log ++ s.history ++ new, r.Fits := List.forall_mem_append.mpr ⟨hfit, hnew⟩
  obtain ⟨u, hu, hrecords, -⟩ := EdgeStore.open_eq (LogHolds.encode hfits)
  refine ⟨u, ?_, ?_⟩
  · rw [← hu, hsync.file, encodeRecords_append (log ++ s.history), List.append_assoc]
  · rw [hrecords, List.foldl_append, ← hsync.records]

end Persistent

theorem inBothOrNeither_iff {u : EdgeStore} {e srcFirstOut dstFirstIn : EdgeId} {P Q : Prop}
    (hout : ∃ l, u.outEdges srcFirstOut = some l ∧ (e ∈ l ↔ P))
    (hin : ∃ l, u.inEdges dstFirstIn = some l ∧ (e ∈ l ↔ Q)) :
    u.InBothOrNeither e srcFirstOut dstFirstIn ↔ (P ↔ Q) := by
  obtain ⟨l, hl, hP⟩ := hout
  obtain ⟨l', hl', hQ⟩ := hin
  rw [← hP, ← hQ]
  constructor
  · intro ⟨m, m', hm, hm', hboth⟩
    obtain rfl := Option.some.inj (hl.symm.trans hm)
    obtain rfl := Option.some.inj (hl'.symm.trans hm')
    exact hboth
  · intro hboth
    exact ⟨l, l', hl, hl', hboth⟩

/-- What is reached in a store with the first `k` of the two records. -/
theorem Relinks.inBothOrNeither_iff [Bincode Edge] {s u : EdgeStore} {edge r r' : Edge}
    {e p p' srcFirstOut dstFirstIn : EdgeId} {a b a' b' : List EdgeId}
    (h : Relinks s edge p p' r r')
    (hout : Segment (follow .outgoing s.records) srcFirstOut (a ++ p :: e :: b) nullEdge)
    (hin : Segment (follow .incoming s.records) dstFirstIn (a' ++ p' :: e :: b') nullEdge)
    (hnull : e ≠ nullEdge) (hget : s.records.get e = some edge) {k : Nat} (hk : k ≤ 2)
    (hrecords : u.records = ([⟨1, p, Bincode.bytes r⟩, ⟨1, p', Bincode.bytes r'⟩].take k).foldl
      applyRecord s.records) :
    u.InBothOrNeither e srcFirstOut dstFirstIn ↔ k ≠ 1 ∨ p = p' := by
  have hp : p ≠ nullEdge := (follow_inv (unlinkFrom_middle 0 hout).2).1
  have hp' : p' ≠ nullEdge := (follow_inv (unlinkFrom_middle 0 hin).2).1
  have hnextOut : follow .outgoing s.records e = some edge.nextOut := follow_of_get hnull hget
  have hnextIn : follow .incoming s.records e = some edge.nextIn := follow_of_get hnull hget
  have hfirst : applyRecord s.records ⟨1, p, Bincode.bytes r⟩ = s.records.put p r :=
    applyRecord_insert _ _ _
  have hboth : applyRecord (s.records.put p r) ⟨1, p', Bincode.bytes r'⟩
      = (s.records.put p r).put p' r' := applyRecord_insert _ _ _
  obtain ⟨hout₁, hout₂⟩ := h.follow_outgoing hp
  obtain ⟨hin₁, hin₂⟩ := h.follow_incoming hp hp'
  -- the outgoing chain leads past the edge with the first record, the incoming one with the last
  have hpastOut : 1 ≤ k → follow .outgoing u.records
      = Function.update (follow .outgoing s.records) p (some edge.nextOut) := by
    intro hone
    obtain rfl | rfl : k = 1 ∨ k = 2 := by omega
    · rw [hrecords, ← hout₁, ← hfirst]
      rfl
    · rw [hrecords, ← hout₂, ← hboth, ← hfirst]
      rfl
  have hsameOut : ¬ 1 ≤ k → follow .outgoing u.records = follow .outgoing s.records := by
    intro hzero
    obtain rfl : k = 0 := by omega
    rw [hrecords]
    rfl
  have hpastIn : k = 2 ∨ k = 1 ∧ p = p' → follow .incoming u.records
      = Function.update (follow .incoming s.records) p' (some edge.nextIn) := by
    rintro (rfl | ⟨rfl, hpp⟩)
    · rw [hrecords, ← hin₂, ← hboth, ← hfirst]
      rfl
    · rw [if_pos hpp, ← hfirst] at hin₁
      rw [hrecords, ← hin₁]
      rfl
  have hsameIn : ¬ (k = 2 ∨ k = 1 ∧ p = p') →
      follow .incoming u.records = follow .incoming s.records := by
    intro hnot
    obtain rfl | rfl | rfl : k = 0 ∨ k = 1 ∨ k = 2 := by omega
    · rw [hrecords]
      rfl
    · have hpp : p ≠ p' := fun hpp => hnot (.inr ⟨rfl, hpp⟩)
      rw [if_neg hpp, ← hfirst] at hin₁
      rw [hrecords, ← hin₁]
      rfl
    · exact absurd (.inl rfl) hnot
  have hreachedOut := reached_iff hout hnextOut hpastOut hsameOut
  have hreachedIn := reached_iff hin hnextIn hpastIn hsameIn
  rw [EdgeStore.inBothOrNeither_iff hreachedOut hreachedIn]
  obtain rfl | rfl | rfl : k = 0 ∨ k = 1 ∨ k = 2 := by omega
  · simp
  · simp
  · simp

end EdgeStore

/-- **Unlinking survives a crash as a whole** exactly when the crash does not come between its two
records, or when one edge is the predecessor in both chains. -/
theorem unlink_survives_iff [Bincode Edge]
    (hshort : ∀ edge : Edge, 1 + 8 + (Bincode.bytes edge).length < 2 ^ 32)
    (log : List LogRecord) (s : EdgeStore) (hsync : RecordStore.Synced log s)
    (hfit : ∀ r ∈ log ++ s.history, r.Fits) (e p p' srcFirstOut dstFirstIn : EdgeId)
    (a b a' b' : List EdgeId)
    (hout : Segment (follow .outgoing s.records) srcFirstOut (a ++ p :: e :: b) nullEdge)
    (hin : Segment (follow .incoming s.records) dstFirstIn (a' ++ p' :: e :: b') nullEdge) :
    ∃ t new, s.unlinkFromChains e srcFirstOut dstFirstIn
        = some (t, srcFirstOut, dstFirstIn, true) ∧
      RecordStore.Synced log t ∧ t.history = s.history ++ new ∧ new.length = 2 ∧
      ∀ k ≤ 2, ∃ u, EdgeStore.open (s.file ++ encodeRecords (new.take k)) = .ok u ∧
        (u.InBothOrNeither e srcFirstOut dstFirstIn ↔ k ≠ 1 ∨ p = p') := by
  obtain ⟨w, hwal⟩ := hsync.wal
  obtain ⟨x, hx⟩ := Option.ne_none_iff_exists'.mp (hout.follows (x := e) (by simp))
  obtain ⟨hnull, edge, hget, -⟩ := follow_inv hx
  obtain ⟨t, r, r', hrun, hlogs, hrelinks⟩ :=
    EdgeStore.unlinkFromChains_inside hwal hget hout hin
  refine ⟨t, _, hrun, hsync.logs hlogs, hlogs.history, rfl, fun k hk => ?_⟩
  have hnew : ∀ x ∈ [⟨1, p, Bincode.bytes r⟩, ⟨1, p', Bincode.bytes r'⟩].take k,
      LogRecord.Fits x := by
    intro x hx
    rcases List.mem_cons.mp (List.mem_of_mem_take hx) with rfl | hx
    · exact hshort r
    · obtain rfl := List.mem_singleton.mp hx
      exact hshort r'
  obtain ⟨u, hu, hrecords⟩ := EdgeStore.open_behind hsync hfit hnew
  refine ⟨u, hu, ?_⟩
  exact hrelinks.inBothOrNeither_iff hout hin hnull hget hk hrecords

/-- Edge 0 from 1 to 2 behind edge 1 in the one chain and behind edge 2 in the other. -/
def EdgeStore.crossed : EdgeStore :=
  [.insertEdge 1 2 0 0 1, .linkIntoChains 0 nullEdge nullEdge, .insertEdge 1 3 0 0 1,
    .linkIntoChains 1 0 nullEdge, .insertEdge 4 2 0 0 1,
    .linkIntoChains 2 nullEdge 0].foldl EdgeStore.perform EdgeStore.fresh

theorem EdgeStore.crossed_synced : RecordStore.Synced [] EdgeStore.crossed :=
  EdgeStore.loggedCalls.synced (EdgeStore.open_synced LogHolds.empty EdgeStore.open_nil).1 _

theorem unlink_survives_iff_between :
    ∃ t new, EdgeStore.crossed.unlinkFromChains 0 1 2 = some (t, 1, 2, true) ∧
      t.history = EdgeStore.crossed.history ++ new ∧
      ∃ u, EdgeStore.open (EdgeStore.crossed.file ++ encodeRecords (new.take 1)) = .ok u ∧
        ¬ u.InBothOrNeither 0 1 2 := by
  have hout : Segment (follow .outgoing EdgeStore.crossed.records) 1 ([] ++ 1 :: 0 :: [])
      nullEdge := ⟨rfl, _, rfl, rfl, _, rfl, rfl⟩
  have hin : Segment (follow .incoming EdgeStore.crossed.records) 2 ([] ++ 2 :: 0 :: [])
      nullEdge := ⟨rfl, _, rfl, rfl, _, rfl, rfl⟩
  have hshort : ∀ edge : Edge, 1 + 8 + (Bincode.bytes edge).length < 2 ^ 32 := by
    intro edge
    rw [Edge.length_bytes]
    decide
  obtain ⟨t, new, hrun, -, hhistory, -, hreopen⟩ := unlink_survives_iff hshort [] EdgeStore.crossed
    EdgeStore.crossed_synced (by decide) 0 1 2 1 2 _ _ _ _ hout hin
  obtain ⟨u, hu, hiff⟩ := hreopen 1 (by decide)
  exact ⟨t, new, hrun, hhistory, u, hu, fun hboth => absurd (hiff.mp hboth) (by decide)⟩

/-- What is in memory after the call. -/
def EdgeStore.uncrossed : EdgeStore :=
  ((EdgeStore.crossed.unlinkFromChains 0 1 2).map Prod.fst).getD EdgeStore.crossed

/-- The first record reaches the log, the second does not. -/
theorem unlink_torn :
    ¬ ∀ (log : List LogRecord) (s t : EdgeStore) (new : List LogRecord)
      (e p p' srcFirstOut dstFirstIn : EdgeId) (a b a' b' : List EdgeId) (k : Nat),
      RecordStore.Synced log s → (∀ r ∈ log ++ s.history, r.Fits) →
      Segment (follow .outgoing s.records) srcFirstOut (a ++ p :: e :: b) nullEdge →
      Segment (follow .incoming s.records) dstFirstIn (a' ++ p' :: e :: b') nullEdge →
      s.unlinkFromChains e srcFirstOut dstFirstIn = some (t, srcFirstOut, dstFirstIn, true) →
      t.history = s.history ++ new → k ≤ new.length →
      ∃ u, EdgeStore.open (s.file ++ encodeRecords (new.take k)) = .ok u ∧
        u.InBothOrNeither e srcFirstOut dstFirstIn := by
  intro h
  obtain ⟨u, hu, outgoing, incoming, hout, hin, hboth⟩ :=
    h [] EdgeStore.crossed EdgeStore.uncrossed (EdgeStore.uncrossed.history.drop 6) 0 1 2 1 2
      [] [] [] [] 1 EdgeStore.crossed_synced (by decide) ⟨rfl, _, rfl, rfl, _, rfl, rfl⟩
      ⟨rfl, _, rfl, rfl, _, rfl, rfl⟩ rfl rfl (by decide)
  have hnew : ∀ r ∈ (EdgeStore.uncrossed.history.drop 6).take 1, r.Fits := by decide
  obtain ⟨v, hv, hrecords⟩ := EdgeStore.open_behind EdgeStore.crossed_synced (by decide) hnew
  obtain rfl := Except.ok.inj (hv.symm.trans hu)
  obtain ⟨records, nextId, freeList, freeCount, wal⟩ := v
  subst hrecords
  obtain rfl : [1] = outgoing := Option.some.inj hout
  obtain rfl : [2, 0] = incoming := Option.some.inj hin
  exact absurd hboth (by decide)

/-! ## Edges that are not there -/

namespace EdgeStore
variable {s : EdgeStore} {id : EdgeId}

/-- The heads are where they were, and every head leads to the edges it led to. -/
structure Unchanged (s t : EdgeStore) (srcFirstOut dstFirstIn srcFirstOut' dstFirstIn' : EdgeId) :
    Prop where
  srcHead : srcFirstOut' = srcFirstOut
  dstHead : dstFirstIn' = dstFirstIn
  outEdges : ∀ start, t.outEdges start = s.outEdges start
  inEdges : ∀ start, t.inEdges start = s.inEdges start

/-- Nothing is reached from an id that is not stored. -/
theorem collect_unknown (hget : s.records.get id = none) (next : Edge → EdgeId)
    (keep : Edge → Bool) : s.collect next keep s.rounds id = some [] := by
  rw [rounds, collect]
  split
  · rfl
  · rw [hget]

section Persistent
variable [Bincode Edge]

/-- There is nothing to change and nothing to log, and both heads are moved. -/
theorem linkIntoChains_unknown (hget : s.records.get id = none) (srcFirstOut dstFirstIn : EdgeId) :
    s.linkIntoChains id srcFirstOut dstFirstIn = (s, id, id) := by
  simp only [linkIntoChains, modifySilently, persist, hget]

theorem unlinkFromChains_unknown (hget : s.records.get id = none)
    (srcFirstOut dstFirstIn : EdgeId) :
    s.unlinkFromChains id srcFirstOut dstFirstIn = some (s, srcFirstOut, dstFirstIn, false) := by
  simp only [unlinkFromChains, hget]

/-- Of the chains nothing is reached any more from the heads that a link of an unknown edge gives
back. -/
theorem linkIntoChains_unknown_lost (hget : s.records.get id = none)
    (srcFirstOut dstFirstIn : EdgeId) :
    let (t, srcFirstOut, dstFirstIn) := s.linkIntoChains id srcFirstOut dstFirstIn
    t.outEdges srcFirstOut = some [] ∧ t.inEdges dstFirstIn = some [] := by
  rw [linkIntoChains_unknown hget]
  exact ⟨collect_unknown hget _ _, collect_unknown hget _ _⟩

end Persistent
end EdgeStore

/-- **An edge that is not there** changes nothing when it is unlinked; when it is linked, exactly if
both heads hold its id already. -/
theorem unknown_edge_unchanged_iff [Bincode Edge] (s : EdgeStore)
    (id srcFirstOut dstFirstIn : EdgeId) (hget : s.records.get id = none) :
    ((∃ t srcFirstOut' dstFirstIn',
      s.linkIntoChains id srcFirstOut dstFirstIn = (t, srcFirstOut', dstFirstIn') ∧
      s.Unchanged t srcFirstOut dstFirstIn srcFirstOut' dstFirstIn') ↔
        srcFirstOut = id ∧ dstFirstIn = id) ∧
    ∃ t srcFirstOut' dstFirstIn',
      s.unlinkFromChains id srcFirstOut dstFirstIn = some (t, srcFirstOut', dstFirstIn', false) ∧
      s.Unchanged t srcFirstOut dstFirstIn srcFirstOut' dstFirstIn' := by
  rw [EdgeStore.linkIntoChains_unknown hget, EdgeStore.unlinkFromChains_unknown hget]
  refine ⟨⟨?_, ?_⟩, s, _, _, rfl, rfl, rfl, fun _ => rfl, fun _ => rfl⟩
  · intro ⟨t, head, head', heq, hsame⟩
    obtain ⟨rfl, heads⟩ := Prod.mk.inj heq
    obtain ⟨rfl, rfl⟩ := Prod.mk.inj heads
    exact ⟨hsame.srcHead.symm, hsame.dstHead.symm⟩
  · intro ⟨hsrc, hdst⟩
    exact ⟨s, id, id, rfl, hsrc.symm, hdst.symm, fun _ => rfl, fun _ => rfl⟩

/-- Edge 7 was never inserted. -/
theorem unknown_edge_unchanged_iff_seven :
    EdgeStore.crossed.records.get 7 = none ∧
    ¬ ∃ t srcFirstOut dstFirstIn,
      EdgeStore.crossed.linkIntoChains 7 1 2 = (t, srcFirstOut, dstFirstIn) ∧
      EdgeStore.crossed.Unchanged t 1 2 srcFirstOut dstFirstIn := by
  refine ⟨rfl, fun hsame => ?_⟩
  have h := (unknown_edge_unchanged_iff EdgeStore.crossed 7 1 2 rfl).1.mp hsame
  exact absurd h (by decide)

/-- Both heads point at edge 7 then, and the chains are lost. -/
theorem unknown_edge_takes_heads :
    ¬ ∀ (s : EdgeStore) (id srcFirstOut dstFirstIn : EdgeId) (outgoing incoming : List EdgeId),
      Segment (follow .outgoing s.records) srcFirstOut outgoing nullEdge →
      Segment (follow .incoming s.records) dstFirstIn incoming nullEdge →
      s.records.get id = none →
      ∃ t srcFirstOut' dstFirstIn',
        s.linkIntoChains id srcFirstOut dstFirstIn = (t, srcFirstOut', dstFirstIn') ∧
        s.Unchanged t srcFirstOut dstFirstIn srcFirstOut' dstFirstIn' := by
  intro h
  obtain ⟨t, head, head', heq, hsame⟩ := h EdgeStore.crossed 7 1 2 [1, 0] [2, 0]
    ⟨rfl, _, rfl, rfl, _, rfl, rfl⟩ ⟨rfl, _, rfl, rfl, _, rfl, rfl⟩ rfl
  have hmoved : EdgeStore.crossed.linkIntoChains 7 1 2 = (EdgeStore.crossed, 7, 7) :=
    EdgeStore.linkIntoChains_unknown rfl 1 2
  rw [hmoved] at heq
  obtain ⟨rfl, heads⟩ := Prod.mk.inj heq
  obtain ⟨rfl, rfl⟩ := Prod.mk.inj heads
  exact absurd hsame.srcHead (by decide)

end LightGraph
