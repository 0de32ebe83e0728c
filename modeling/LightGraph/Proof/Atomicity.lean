import LightGraph.Storage.Bincode
import LightGraph.Proof.DatabaseLogs

/-!
# A crash in the middle of a commit

A commit sends its records to three logs and flushes one after the other. A crash leaves each
log with everything flushed before and some of what was sent since, and the three may differ in
how much: one is ahead, another behind. Reopening such a directory gives the nodes as they were
after some of the writes, the edges as they were after some others, and the columns likewise
(`Logged.open_crash`).

Nothing in a log says which records belong together, so a transaction is all or nothing exactly
when there is nothing to tear: when the maps, taken from one write to the next, are never seen
anywhere but where they were before the transaction and where it leaves them (`Untorn`). Such a
transaction comes to one write at most (`Untorn.single`).
-/

set_option autoImplicit false

namespace LightGraph

open Lib

/-! ## Crash states -/

/-- What a crash may leave of a log: what was flushed, and the first of the records sent
since. -/
def CrashFile (log flushed sent : List LogRecord) (file : Bytes) : Prop :=
  ∃ kept, flushed <+: kept ∧ kept <+: sent ∧ file = magic ++ encodeRecords (log ++ kept)

section Persistent
variable [Bincode Node] [Bincode Edge] [Bincode (Option Value)]

namespace Database

/-- A directory that a crash in `tx.commit` may leave, `n` of the writes performed. The points
between the flushes of phase 3 add none: a flush only rules files out. -/
structure CrashAt (logs : DirLogs) (db : Database) (tx : Transaction) (n : Nat)
    (dir : Directory) : Prop where
  nodes : CrashFile logs.nodes db.nodes.history
    (db.performAll tx.txId (tx.writes.take n)).nodes.history dir.nodesWal
  edges : CrashFile logs.edges db.edges.history
    (db.performAll tx.txId (tx.writes.take n)).edges.history dir.edgesWal
  props : CrashFile logs.props db.props.history
    (db.performAll tx.txId (tx.writes.take n)).props.history dir.propsWal

/-- The directory opens, and to the maps there were before the commit or to those there would
have been after it. -/
def AllOrNothing (db : Database) (tx : Transaction) (dir : Directory) : Prop :=
  ∃ reopened tx' committed, Database.open dir = .ok reopened ∧
    tx.commit db = .ok (tx', committed) ∧
    (reopened.maps = db.maps ∨ reopened.maps = committed.maps)

/-- All or nothing, wherever the crash. -/
def CrashAtomic (logs : DirLogs) (db : Database) (tx : Transaction) : Prop :=
  ∀ n dir, CrashAt logs db tx n dir → db.AllOrNothing tx dir

end Database
end Persistent

/-! ## Nothing to tear -/

/-- From one write to the next, the maps are where they were before the first or where they
are after the last. -/
def Untorn (m : Maps) (txId : TxId) (ws : List StoreWrite) : Prop :=
  ∀ n, m.writeAll txId (ws.take n) = m ∨ m.writeAll txId (ws.take n) = m.writeAll txId ws

namespace Untorn
variable {m : Maps} {txId : TxId} {ws : List StoreWrite}

/-- The first write that changes anything does all there is to do. -/
theorem single (h : Untorn m txId ws) :
    m.writeAll txId ws = m ∨ ∃ w ∈ ws, m.writeAll txId ws = m.write txId w := by
  have hfirst : ∀ n, m.writeAll txId (ws.take n) = m ∨
      ∃ w ∈ ws, m.writeAll txId ws = m.write txId w := by
    intro n
    induction n with
    | zero => exact Or.inl rfl
    | succ n ih =>
      rcases ih with hsame | hone
      · by_cases hn : n < ws.length
        · have hstep : m.writeAll txId (ws.take (n + 1)) = m.write txId ws[n] := by
            rw [List.take_succ_eq_append_getElem hn, Maps.writeAll, List.foldl_append]
            show Maps.write txId (m.writeAll txId (ws.take n)) ws[n] = _
            rw [hsame]
          rcases h (n + 1) with heq | heq
          · exact Or.inl heq
          · exact Or.inr ⟨ws[n], List.getElem_mem hn, heq.symm.trans hstep⟩
        · rw [List.take_of_length_le (by omega)] at hsame ⊢
          exact Or.inl hsame
      · exact Or.inr hone
  have hall := hfirst ws.length
  rw [List.take_length] at hall
  exact hall

/-- Three different points, one for each map, show no more than one point does. -/
theorem mix (h : Untorn m txId ws) (a b c : Nat) :
    let mixed : Maps :=
      { nodes := (m.writeAll txId (ws.take a)).nodes
        edges := (m.writeAll txId (ws.take b)).edges
        props := (m.writeAll txId (ws.take c)).props }
    mixed = m ∨ mixed = m.writeAll txId ws := by
  intro mixed
  have hkeep : ∀ {α : Type} (part : Maps → α), part (m.writeAll txId ws) = part m →
      ∀ n, part (m.writeAll txId (ws.take n)) = part m := by
    intro α part hpart n
    rcases h n with hn | hn
    · rw [hn]
    · rw [hn, hpart]
  rcases h.single with hsame | ⟨w, -, hone⟩
  · refine Or.inl (Maps.ext ?_ ?_ ?_)
    · exact hkeep Maps.nodes (by rw [hsame]) a
    · exact hkeep Maps.edges (by rw [hsame]) b
    · exact hkeep Maps.props (by rw [hsame]) c
  · -- two of the maps are out of the question, the third is at one point only
    rcases Maps.write_cases txId w with ⟨id, f, -, hw⟩ | ⟨id, f, -, hw⟩ | ⟨_, _, _, _, -, hw⟩
    · have hedges := hkeep Maps.edges (by rw [hone, hw])
      have hprops := hkeep Maps.props (by rw [hone, hw])
      have hmixed : mixed = m.writeAll txId (ws.take a) :=
        Maps.ext rfl ((hedges b).trans (hedges a).symm) ((hprops c).trans (hprops a).symm)
      rw [hmixed]
      exact h a
    · have hnodes := hkeep Maps.nodes (by rw [hone, hw])
      have hprops := hkeep Maps.props (by rw [hone, hw])
      have hmixed : mixed = m.writeAll txId (ws.take b) :=
        Maps.ext ((hnodes a).trans (hnodes b).symm) rfl ((hprops c).trans (hprops b).symm)
      rw [hmixed]
      exact h b
    · have hnodes := hkeep Maps.nodes (by rw [hone, hw])
      have hedges := hkeep Maps.edges (by rw [hone, hw])
      have hmixed : mixed = m.writeAll txId (ws.take c) :=
        Maps.ext ((hnodes a).trans (hnodes c).symm) ((hedges b).trans (hedges c).symm) rfl
      rw [hmixed]
      exact h c

end Untorn

/-! ## A log cut between two records -/

/-- Where each step adds one record at most, every prefix of the history was the history at
some point. -/
theorem exists_take_of_isPrefix {σ α : Type} {step : σ → α → σ} (inv : σ → Prop)
    {hist : σ → List LogRecord}
    (hstep : ∀ s a, inv s → inv (step s a) ∧ GrowsByOne (hist s) (hist (step s a)))
    (as : List α) : ∀ {s : σ}, inv s → hist s <+: hist (as.foldl step s) ∧
      ∀ kept, hist s <+: kept → kept <+: hist (as.foldl step s) →
        ∃ n ≤ as.length, hist ((as.take n).foldl step s) = kept := by
  induction as with
  | nil =>
    intro s _
    refine ⟨List.prefix_rfl, fun kept hle hge => ⟨0, Nat.le_refl 0, ?_⟩⟩
    exact hle.eq_of_length (Nat.le_antisymm hle.length_le hge.length_le)
  | cons a as ih =>
    intro s hs
    obtain ⟨hs', hone⟩ := hstep s a hs
    obtain ⟨hmono, hcut⟩ := ih hs'
    refine ⟨hone.isPrefix.trans hmono, fun kept hle hge => ?_⟩
    by_cases hkept : kept = hist s
    · exact ⟨0, Nat.zero_le _, hkept.symm⟩
    · -- more than was there at the start is no less than there is after the first step
      have hlonger : (hist (step s a)).length ≤ kept.length := by
        have hne : (hist s).length ≠ kept.length :=
          fun heq => hkept (hle.eq_of_length heq).symm
        have hlen := hle.length_le
        rcases hone with heq | ⟨r, heq⟩
        · rw [heq]
          exact hlen
        · rw [heq, List.length_append, List.length_singleton]
          omega
      obtain ⟨n, hn, hhist⟩ := hcut kept (List.prefix_of_prefix_length_le hmono hge hlonger) hge
      exact ⟨n + 1, Nat.succ_le_succ hn, hhist⟩

section Persistent
variable [Bincode Node] [Bincode Edge] [Bincode (Option Value)]

namespace Database
variable {logs : DirLogs} {db : Database} {tx : Transaction}

/-- The logs at a point of the commit, which are no longer than at its end. -/
theorem Logged.take (h : db.Logged logs) (tx : Transaction) (n : Nat) :
    (db.performAll tx.txId (tx.writes.take n)).Logged logs ∧
    (db.performAll tx.txId (tx.writes.take n)).Extends (db.performAll tx.txId tx.writes) := by
  have hmid := (h.performAll tx.txId (tx.writes.take n)).1
  refine ⟨hmid, ?_⟩
  have hrest := (hmid.performAll tx.txId (tx.writes.drop n)).2
  rw [← performAll_append, List.take_append_drop] at hrest
  exact hrest

/-- A file a crash may leave of one of the logs is what that log's file was at some point. -/
theorem Logged.crashFile (h : db.Logged logs) {hist : Database → List LogRecord}
    (hone : ∀ {d d' : Database}, d.SendsOnce d' → GrowsByOne (hist d) (hist d'))
    {log : List LogRecord} {n : Nat} {file : Bytes}
    (hfile : CrashFile log (hist db) (hist (db.performAll tx.txId (tx.writes.take n))) file) :
    ∃ a, file = magic ++
      encodeRecords (log ++ hist (db.performAll tx.txId (tx.writes.take a))) := by
  obtain ⟨kept, hle, hge, rfl⟩ := hfile
  obtain ⟨a, -, ha⟩ := (exists_take_of_isPrefix (Logged logs)
    (fun d w hd => ⟨(hd.perform tx.txId w).1, hone (hd.perform tx.txId w).2⟩)
    (tx.writes.take n) h).2 kept hle hge
  rw [List.take_take] at ha
  exact ⟨min a n, by rw [Database.performAll, ha]⟩

/-- **What is found after a crash**: each map as it was at some point of the commit. -/
theorem Logged.open_crash (h : db.Logged logs) (hmir : db.props.Mirrored logs.props)
    (hnames : ∀ w ∈ tx.writes, w.ShortName)
    (hfit : AllFit logs (db.performAll tx.txId tx.writes)) {n : Nat} {dir : Directory}
    (hcrash : CrashAt logs db tx n dir) :
    ∃ a b c reopened, Database.open dir = .ok reopened ∧
      reopened.maps =
        { nodes := (db.maps.writeAll tx.txId (tx.writes.take a)).nodes
          edges := (db.maps.writeAll tx.txId (tx.writes.take b)).edges
          props := (db.maps.writeAll tx.txId (tx.writes.take c)).props } := by
  obtain ⟨nodesWal, edgesWal, propsWal⟩ := dir
  obtain ⟨a, rfl⟩ := h.crashFile (fun hs => hs.nodes) hcrash.nodes
  obtain ⟨b, rfl⟩ := h.crashFile (fun hs => hs.edges) hcrash.edges
  obtain ⟨c, rfl⟩ := h.crashFile (fun hs => hs.props) hcrash.props
  obtain ⟨ha, haext⟩ := h.take tx a
  obtain ⟨hb, hbext⟩ := h.take tx b
  obtain ⟨hc, hcext⟩ := h.take tx c
  obtain ⟨reopened, hopen, -, hnodes, hedges, hprops⟩ := reopen_files ha hb hc
    (hfit.of_extends haext) (hfit.of_extends hbext) (hfit.of_extends hcext)
  rw [ha.nodes.file, hb.edges.file, hc.props.file] at hopen
  refine ⟨a, b, c, reopened, hopen, ?_⟩
  have hmirrored := h.performAll_mirrored tx.txId (tx.writes.take c) hmir
    fun w hw => hnames w (List.mem_of_mem_take hw)
  rw [← performAll_maps, ← performAll_maps, ← performAll_maps]
  exact Maps.ext hnodes hedges (hprops hmirrored)

/-- The directory as it stands between two writes is one a crash may leave. -/
theorem Logged.crashAt_dir (h : db.Logged logs) (n : Nat) :
    CrashAt logs db tx n (db.performAll tx.txId (tx.writes.take n)).dir := by
  obtain ⟨hmid, hext⟩ := h.performAll tx.txId (tx.writes.take n)
  exact ⟨⟨_, hext.nodes, List.prefix_rfl, hmid.nodes.file⟩,
    ⟨_, hext.edges, List.prefix_rfl, hmid.edges.file⟩,
    ⟨_, hext.props, List.prefix_rfl, hmid.props.file⟩⟩

theorem Logged.crashAtomic_iff (h : db.Logged logs) (hmir : db.props.Mirrored logs.props)
    (hnames : ∀ w ∈ tx.writes, w.ShortName)
    (hfit : AllFit logs (db.performAll tx.txId tx.writes)) {tx' : Transaction}
    {committed : Database} (hcommit : tx.commit db = .ok (tx', committed))
    (hmaps : committed.maps = db.maps.writeAll tx.txId tx.writes) :
    CrashAtomic logs db tx ↔ Untorn db.maps tx.txId tx.writes := by
  constructor
  · intro hatomic n
    obtain ⟨reopened, tx'', committed', hopen, hcommit', hcase⟩ := hatomic n _ (h.crashAt_dir n)
    rw [hcommit, Except.ok.injEq, Prod.mk.injEq] at hcommit'
    obtain ⟨-, rfl⟩ := hcommit'
    -- the maps between the two writes are what is found
    obtain ⟨hmid, hext⟩ := h.take tx n
    obtain ⟨reopened', hopen', -, hnodes, hedges, hprops⟩ :=
      hmid.reopen (hfit.of_extends hext)
    rw [hopen, Except.ok.injEq] at hopen'
    subst hopen'
    have hmirrored := h.performAll_mirrored tx.txId (tx.writes.take n) hmir
      fun w hw => hnames w (List.mem_of_mem_take hw)
    have hfound : reopened.maps = db.maps.writeAll tx.txId (tx.writes.take n) := by
      rw [← performAll_maps]
      exact Maps.ext hnodes hedges (hprops hmirrored)
    rw [hfound, hmaps] at hcase
    exact hcase
  · intro huntorn n dir hcrash
    obtain ⟨a, b, c, reopened, hopen, hfound⟩ := h.open_crash hmir hnames hfit hcrash
    refine ⟨reopened, tx', committed, hopen, hcommit, ?_⟩
    rw [hfound, hmaps]
    exact huntorn.mix a b c

/-- The same for a transaction that was begun and filled in a database where nobody else holds
a ticket. -/
theorem Logged.crashAtomic_script {before : Database} (h : before.Logged logs)
    (hidle : before.Idle) (hmir : before.props.Mirrored logs.props) {script : TxScript}
    (hnames : ∀ c ∈ script.calls, c.ShortName) :
    let tx := (before.prepare script).1
    let db := (before.prepare script).2
    AllFit logs (db.performAll tx.txId tx.writes) →
      (CrashAtomic logs db tx ↔ Untorn db.maps tx.txId tx.writes) := by
  intro tx db hfit
  obtain ⟨hsame, -⟩ := prepare_same before script
  obtain ⟨m, -, hcommit, -⟩ := prepare_turn hidle script
  refine (hsame.logged h).crashAtomic_iff (by rw [hsame.props]; exact hmir)
    (prepare_shortName before hnames) hfit hcommit ?_
  rw [performAll_maps]
  rfl

end Database

/-- **A transaction is all or nothing across a crash exactly when there is nothing to tear.**
Any transactions before it, one at a time, on a directory as earlier runs left it, and property
names whose lengths fit a byte. -/
theorem crash_atomic_iff {dir : Directory} {logs : DirLogs} (hdir : dir.Holds logs)
    (scripts : List TxScript) (script : TxScript)
    (hnames : ∀ s ∈ scripts ++ [script], ∀ c ∈ s.calls, c.ShortName) :
    ∃ opened before, Database.open dir = .ok opened ∧
      run Database.runTx opened scripts = some before ∧
      let tx := (before.prepare script).1
      let db := (before.prepare script).2
      (Database.AllFit logs (db.performAll tx.txId tx.writes) →
        (Database.CrashAtomic logs db tx ↔ Untorn db.maps tx.txId tx.writes)) := by
  obtain ⟨opened, hopen, hlog, hidle, hmir, -⟩ := Database.open_logged hdir
  obtain ⟨before, hrun, hlog', hidle', hmir'⟩ := hlog.runTxs scripts hidle
  refine ⟨opened, before, hopen, hrun, hlog'.crashAtomic_script hidle' ?_ ?_⟩
  · exact hmir' hmir fun s hs => hnames s (List.mem_append_left _ hs)
  · exact hnames script (by simp)

end Persistent

/-! ## A node without its edge -/

/-- One transaction that creates a node and an edge from it to itself. -/
def createLoop : TxScript :=
  { calls := [.createNode [7] 0, .createEdge 0 0 1 0], commits := true }

/-- The node's log is ahead of the edge's. -/
theorem crash_tears_commit :
    ¬ ∀ (dir : Directory) (logs : DirLogs) (scripts : List TxScript) (script : TxScript)
        (opened before : Database), dir.Holds logs →
      (∀ s ∈ scripts ++ [script], ∀ c ∈ s.calls, c.ShortName) →
      Database.open dir = .ok opened → run Database.runTx opened scripts = some before →
      Database.AllFit logs ((before.prepare script).2.performAll (before.prepare script).1.txId
        (before.prepare script).1.writes) →
      Database.CrashAtomic logs (before.prepare script).2 (before.prepare script).1 := by
  intro h
  obtain ⟨opened, hopen, hlog, hidle, hmir, -⟩ := Database.open_logged Directory.fresh_holds
  obtain rfl : Database.fresh = opened := Except.ok.inj hopen
  have hnames : ∀ c ∈ createLoop.calls, c.ShortName := by simp [createLoop, TxCall.ShortName]
  have hfit : Database.AllFit ⟨[], [], []⟩ ((Database.fresh.prepare createLoop).2.performAll
      (Database.fresh.prepare createLoop).1.txId (Database.fresh.prepare createLoop).1.writes) :=
    ⟨by decide, by decide⟩
  have hatomic := h _ _ [] createLoop _ _ Directory.fresh_holds (by simpa using hnames) hopen rfl
    hfit
  rcases (hlog.crashAtomic_script hidle hmir hnames hfit).mp hatomic 1 with heq | heq
  · -- the node is there
    have hnode := congrArg (fun m => m.nodes.get 0) heq
    exact absurd hnode (by decide)
  · -- the edge is not
    have hedge := congrArg (fun m => m.edges.get 0) heq
    exact absurd hedge (by decide)

/-- The same transaction, under the theorem. -/
theorem crash_atomic_iff_loop :
    let tx := (Database.fresh.prepare createLoop).1
    let db := (Database.fresh.prepare createLoop).2
    (Database.CrashAtomic ⟨[], [], []⟩ db tx ↔ Untorn db.maps tx.txId tx.writes) := by
  obtain ⟨opened, before, hopen, hrun, hiff⟩ :=
    crash_atomic_iff Directory.fresh_holds [] createLoop
      (by simp [createLoop, TxCall.ShortName])
  obtain rfl : Database.fresh = opened := Except.ok.inj hopen
  obtain rfl : Database.fresh = before := Option.some.inj hrun
  exact hiff ⟨by decide, by decide⟩

end LightGraph
