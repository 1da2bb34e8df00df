import SindiaRpc.ServerState
import SindiaRpc.WriteSteps
import SindiaRpc.GuardedRuns
import SindiaRpc.ListUpdates

/-!
# What the server's table refers to

The accept handler enters a connection under the address it has before `Start`,
which is empty, and the close callback looks for the address it has after. So
the table holds one entry, for the connection accepted last, and no close ever
removes it: the table is exact only while it is empty, and `Stop` reaches no
other connection. The accept loop goes on unless `Start` throws.
-/
namespace SindiaRpc.ServerConnections
open MessageFrames ConnectionState ServerState GuardedRuns ListUpdates WriteSteps

theorem address_ne_empty (ip : String) (n : ℕ) : ip ++ ":" ++ toString n ≠ "" := by
  intro h
  have hlen := congrArg String.length h
  simp at hlen

/-! ### The one entry -/

/-- What the table holds after `n` successful accepts. -/
def lastEntry : ℕ → List (Sigma fun _ : String => ℕ)
  | 0 => []
  | n + 1 => [⟨"",n⟩]

structure Recorded (s : Server) : Prop where
  table : s.connmap.entries = lastEntry s.conns.length
  addressed : s.failed = false → ∀ conn ∈ s.conns, conn.peeraddr ≠ ""

section Table
variable {abi : Abi} {s t : Server} {e : ServerState.Event} {c : ℕ}

theorem kerase_lastEntry {key : String} (hkey : key ≠ "") (n : ℕ) :
    (lastEntry n).kerase key = lastEntry n := by
  cases n with
  | zero => rfl
  | succ n =>
      have hne : key ≠ (⟨"",n⟩ : Sigma fun _ : String => ℕ).1 := hkey
      rw [lastEntry,List.kerase_cons_ne hne,List.kerase_nil]

theorem Recorded.lookup (h : Recorded s) {key : String} :
    s.connmap.lookup key = some c ↔ key = "" ∧ c + 1 = s.conns.length := by
  rw [AList.lookup,h.table]
  cases s.conns.length with
  | zero => simp [lastEntry]
  | succ n =>
      by_cases hkey : key = ""
      · subst hkey
        simp [lastEntry,eq_comm]
      · simp [lastEntry,hkey,List.dlookup_cons_ne]

/-- The close callback finds nothing to remove. -/
theorem closeConn_eq (htable : s.connmap.entries = lastEntry s.conns.length)
    (haddr : ∀ conn ∈ s.conns, conn.peeraddr ≠ "") : s.closeConn c = s := by
  unfold Server.closeConn
  split
  · rfl
  · rename_i conn hconn
    have hne := haddr conn (List.mem_of_getElem? hconn)
    have herase : s.connmap.erase conn.peeraddr = s.connmap := by
      apply AList.ext
      change s.connmap.entries.kerase conn.peeraddr = s.connmap.entries
      rw [htable,kerase_lastEntry hne]
    rw [herase]

/-- A successful accept replaces the entry. -/
theorem entries_insert (h : s.connmap.entries = lastEntry s.conns.length) :
    (s.connmap.insert "" s.conns.length).entries = lastEntry (s.conns.length + 1) := by
  rw [AList.entries_insert,h]
  cases s.conns.length with
  | zero => rfl
  | succ n => simp [lastEntry]

/-- What `Stop` does to the connections: the last one is closed if anything
still holds it. -/
def closedLast (s : Server) : List Connection :=
  match s.conns[s.conns.length - 1]? with
  | none => s.conns
  | some conn => if conn.reads = [] then s.conns
      else s.conns.set (s.conns.length - 1) conn.close

theorem length_closedLast (s : Server) : (closedLast s).length = s.conns.length := by
  unfold closedLast
  split
  · rfl
  · split_ifs <;> simp

/-- Closing the last connection leaves its entry where it is. -/
theorem closeConnection_eq (htable : s.connmap.entries = lastEntry s.conns.length)
    (haddr : ∀ conn ∈ s.conns, conn.peeraddr ≠ "") {conn : Connection}
    (hconn : s.conns[c]? = some conn) :
    s.closeConnection c = {s with conns := s.conns.set c conn.close} := by
  have hclosed : conn.close.peeraddr ≠ "" := haddr conn (List.mem_of_getElem? hconn)
  have heq := closeConn_eq (s := {s with conns := s.conns.set c conn.close}) (c := c)
    (by simpa using htable) (forall_mem_set haddr hclosed)
  simp only [Server.closeConnection,hconn]
  rw [heq]
  exact ite_self _

theorem Recorded.frame (h : Recorded s) (hconns : t.conns = s.conns)
    (hmap : t.connmap = s.connmap) (hfailed : t.failed = s.failed) : Recorded t := by
  refine ⟨by rw [hmap,hconns,h.table],?_⟩
  rw [hfailed,hconns]
  exact h.addressed

/-- The loop of `Stop` visits one entry at most. -/
theorem closeAll_eq (h : Recorded s) (hs : s.failed = false) :
    Server.closeAll s.connmap.keys s = some {s with conns := closedLast s} := by
  have htable := h.table
  have haddr := h.addressed hs
  cases hn : s.conns.length with
  | zero =>
      have hkeys : s.connmap.keys = [] := by rw [AList.keys,htable,hn]; rfl
      have hnil : s.conns = [] := List.length_eq_zero_iff.mp hn
      have hlast : closedLast s = s.conns := by rw [closedLast,hnil]; rfl
      rw [hkeys,Server.closeAll,hlast]
  | succ n =>
      have hkeys : s.connmap.keys = [""] := by rw [AList.keys,htable,hn]; rfl
      have hlookup : s.connmap.lookup "" = some n := h.lookup.mpr ⟨rfl,hn.symm⟩
      have hmem : "" ∈ s.connmap := AList.lookup_isSome.mp (by rw [hlookup]; rfl)
      obtain ⟨conn,hconn⟩ : ∃ conn, s.conns[n]? = some conn :=
        ⟨_,List.getElem?_eq_getElem (by omega)⟩
      have hheld : s.Held n ↔ conn.reads ≠ [] := by simp [Server.Held,hconn]
      rw [hkeys,Server.closeAll,hlookup,closedLast,hn,Nat.add_sub_cancel,hconn]
      by_cases hreads : conn.reads = []
      · simp only [if_neg (not_not.mpr hreads ∘ hheld.mp),if_pos hreads,Server.closeAll]
      · simp only [if_pos (hheld.mpr hreads),if_neg hreads,closeConnection_eq htable haddr hconn,
          if_pos hmem,Server.closeAll]

theorem stop_eq (h : Recorded s) (hs : s.failed = false) : s.stop = some {s with
    stopped := true
    accepts := s.accepts.map fun r => r <|> some operationAborted
    conns := closedLast s} := by
  have hstopped : Recorded {s with
      stopped := true
      accepts := s.accepts.map fun r => r <|> some operationAborted} := h.frame rfl rfl rfl
  exact closeAll_eq hstopped hs

theorem Recorded.closed (h : Recorded s) :
    Recorded {s with
      stopped := true
      accepts := s.accepts.map fun r => r <|> some operationAborted
      conns := closedLast s} := by
  refine ⟨by simpa only [length_closedLast] using h.table,?_⟩
  intro hfailed conn hmem
  have haddr := h.addressed hfailed
  change conn ∈ closedLast s at hmem
  unfold closedLast at hmem
  split at hmem
  · exact haddr conn hmem
  · rename_i last hlast
    split_ifs at hmem
    · exact haddr conn hmem
    · have hl := haddr last (List.mem_of_getElem? hlast)
      exact forall_mem_set haddr (a := last.close) hl conn hmem

theorem Recorded.acceptHandler (h : Recorded s) (hs : s.failed = false) (error : ErrorCode)
    (ip : Option String) (port : Option ℕ) : Recorded (s.acceptHandler error ip port) := by
  by_cases he : error = 0
  · subst he
    rcases acceptHandler_cases ip port s with ⟨a,n,_,_,heq⟩ | ⟨_,heq⟩
    · rw [heq]
      refine ⟨?_,?_⟩
      · simpa [Server.accept] using entries_insert h.table
      · intro _
        exact forall_mem_concat (h.addressed hs) (address_ne_empty a n)
    · rw [heq]
      refine ⟨?_,?_⟩
      · simpa using entries_insert h.table
      · intro hfalse
        cases hfalse
  · rw [Server.acceptHandler,if_neg he]
    exact h.frame rfl rfl rfl

theorem Recorded.step (h : Recorded s) (hs : ServerState.step abi s e = some t) : Recorded t := by
  cases e with
  | start =>
      obtain ⟨_,rfl⟩ := step_start.mp hs
      exact h.frame rfl rfl rfl
  | acceptDone i error =>
      obtain ⟨_,_,rfl⟩ := step_acceptDone.mp hs
      exact h.frame rfl rfl rfl
  | runAccept i ip port =>
      obtain ⟨error,_,hrun,rfl⟩ := step_runAccept.mp hs
      refine Recorded.acceptHandler ?_ ?_ error ip port
      · exact h.frame rfl rfl rfl
      · exact hrun.2.2
  | connection c e =>
      obtain ⟨conn,conn',hconn,hrun,_,hstep,rfl⟩ := step_connection.mp hs
      have haddr := h.addressed hrun.2.2
      have hconn' : conn'.peeraddr ≠ "" := by
        rw [peeraddr_step hstep]
        exact haddr conn (List.mem_of_getElem? hconn)
      have hset : ∀ k ∈ s.conns.set c conn', k.peeraddr ≠ "" := forall_mem_set haddr hconn'
      have hrecorded : Recorded {s with conns := s.conns.set c conn'} :=
        ⟨by simpa using h.table,fun _ => hset⟩
      split_ifs
      · rw [closeConn_eq hrecorded.table hset]
        exact hrecorded
      · exact hrecorded
  | stop =>
      obtain ⟨hrun,hstop⟩ := step_stop.mp hs
      rw [stop_eq h hrun.2.2] at hstop
      cases hstop
      exact h.closed

theorem recorded_init : Recorded {} := ⟨rfl,fun _ _ hmem => by cases hmem⟩

theorem Recorded.run {es : List ServerState.Event} (hrun : exec (ServerState.step abi) {} es = some s) :
    Recorded s := by
  exact exec_preserves (ServerState.step abi) (fun _ _ _ h hs => h.step hs) recorded_init hrun

end Table

/-! ### The table -/

/-- The entries are those of the connections accepted and not closed, each
under its address. -/
def Exact (s : Server) : Prop := ∀ key c, s.connmap.lookup key = some c ↔
  ∃ conn ∈ s.conns[c]?, conn.isOpen = true ∧ conn.peeraddr = key

/-- An accept has succeeded and its peer is still there when the handler runs. -/
def Establishes (s : Server) : ServerState.Event → Prop
  | .runAccept i ip port => s.Running ∧ s.accepts[i]? = some (some 0) ∧ ip ≠ none ∧ port ≠ none
  | _ => False

/-- An accept has succeeded and its peer is gone when the handler runs. -/
def PeerGone (s : Server) : ServerState.Event → Prop
  | .runAccept i ip port => s.Running ∧ s.accepts[i]? = some (some 0) ∧ (ip = none ∨ port = none)
  | _ => False

section Exactness
variable {abi : Abi} {s t : Server} {e : ServerState.Event}

theorem exact_iff (h : Recorded s) (hs : s.failed = false) : Exact s ↔ s.conns = [] := by
  constructor
  · intro hexact
    by_contra hne
    have hpos := List.length_pos_of_ne_nil hne
    obtain ⟨conn,hconn,_,haddr⟩ := (hexact "" (s.conns.length - 1)).mp
      (h.lookup.mpr ⟨rfl,by omega⟩)
    exact h.addressed hs conn (List.mem_of_getElem? hconn) haddr
  · intro hnil key c
    rw [h.lookup,hnil]
    simp

theorem step_accepted {i : ℕ} {ip : Option String} {port : Option ℕ} (hs : s.Running)
    (hi : s.accepts[i]? = some (some 0)) : ServerState.step abi s (.runAccept i ip port) =
      some (Server.acceptHandler 0 ip port {s with accepts := s.accepts.eraseIdx i}) :=
  step_runAccept.mpr ⟨0,hi,hs,rfl⟩

/-- Until a connection is established the table is empty, unless `Start` threw. -/
structure Empty (s : Server) : Prop extends Recorded s where
  unused : s.failed = false → s.conns = []

theorem Empty.step (h : Empty s) (he : ¬ Establishes s e)
    (hs : ServerState.step abi s e = some t) : Empty t := by
  refine ⟨h.toRecorded.step hs,?_⟩
  cases e with
  | start =>
      obtain ⟨_,rfl⟩ := step_start.mp hs
      exact h.unused
  | acceptDone i error =>
      obtain ⟨_,_,rfl⟩ := step_acceptDone.mp hs
      exact h.unused
  | runAccept i ip port =>
      obtain ⟨error,hi,hrun,rfl⟩ := step_runAccept.mp hs
      by_cases herror : error = 0
      · subst herror
        rcases acceptHandler_cases ip port {s with accepts := s.accepts.eraseIdx i} with
          ⟨a,n,rfl,rfl,_⟩ | ⟨_,heq⟩
        · exact absurd ⟨hrun,hi,by simp,by simp⟩ he
        · rw [heq]
          intro hfalse
          cases hfalse
      · rw [Server.acceptHandler,if_neg herror]
        exact h.unused
  | connection c e =>
      obtain ⟨conn,conn',hconn,hrun,_⟩ := step_connection.mp hs
      rw [h.unused hrun.2.2] at hconn
      cases hconn
  | stop =>
      obtain ⟨hrun,hstop⟩ := step_stop.mp hs
      rw [stop_eq h.toRecorded hrun.2.2] at hstop
      cases hstop
      intro hfailed
      exact List.length_eq_zero_iff.mp ((length_closedLast s).trans (by rw [h.unused hfailed]; rfl))

theorem Empty.establishes (h : Empty s) (he : Establishes s e) :
    ∃ t, ServerState.step abi s e = some t ∧ ¬ (t.failed = false → Exact t) := by
  cases e with
  | runAccept i ip port =>
      obtain ⟨hrun,hi,hip,hport⟩ := he
      have hs : ServerState.step abi s (.runAccept i ip port) = some _ := step_accepted hrun hi
      refine ⟨_,hs,?_⟩
      rcases acceptHandler_cases ip port {s with accepts := s.accepts.eraseIdx i} with
        ⟨a,n,_,_,heq⟩ | ⟨hgone,_⟩
      · intro hexact
        have hrec := h.toRecorded.step hs
        rw [heq] at hexact hrec
        have hnil := (exact_iff hrec hrun.2.2).mp (hexact hrun.2.2)
        simp [Server.accept] at hnil
      · rcases hgone with hnone | hnone
        · exact absurd hnone hip
        · exact absurd hnone hport
  | start | acceptDone _ _ | connection _ _ | stop => exact absurd he id

end Exactness

/-- The table is exact in every state of a run exactly if no connection is
established in it, and in no state with one. -/
theorem connmap_exact_iff (abi : Abi) (es : List ServerState.Event) :
    (AllStates (ServerState.step abi) (fun s => s.failed = false → Exact s) {} es ↔
      AllSteps (ServerState.step abi) (fun s e => ¬ Establishes s e) {} es) ∧
    AllStates (ServerState.step abi) (fun s => s.failed = false → (Exact s ↔ s.conns = [])) {} es := by
  refine ⟨?_,?_⟩
  · apply allStates_iff_allSteps (I := Empty)
      (fun s h hs => (exact_iff h.toRecorded hs).mpr (h.unused hs)) (fun _ _ _ h he hs => h.step he hs)
    · exact fun _ _ h he => h.establishes (not_not.mp he)
    · exact ⟨recorded_init,fun _ => rfl⟩
  · apply allStates_of_invariant (I := Recorded) ?_ ?_ recorded_init
    · exact fun _ _ _ h hs => h.step hs
    · exact fun _ h hs => exact_iff h hs

/-- One accepted peer is enough. -/
theorem entry_misnamed : ¬ ∀ es : List ServerState.Event,
    AllStates (ServerState.step (lp64 .little)) (fun s => s.failed = false → Exact s) {} es := by
  intro h
  have hrun : ∃ s ∈ exec (ServerState.step (lp64 .little)) {}
      [.start,.acceptDone 0 0,.runAccept 0 (some "10.0.0.1") (some 5000)],
      s.failed = false ∧ s.conns.length = 1 := by decide
  obtain ⟨s,hs,hfailed,hlen⟩ := hrun
  have hnil := (exact_iff (Recorded.run hs) hfailed).mp ((h _).last hs hfailed)
  rw [hnil] at hlen
  cases hlen

/-! ### The accept loop -/

/-- Between `Start` and `Stop` one accept is outstanding. -/
def Accepting (s : Server) : Prop :=
  s.started = true → s.stopped = false → s.failed = false ∧ s.accepts.length = 1

structure Listening (s : Server) : Prop extends Recorded s where
  intact : s.failed = false
  idle : s.started = false → s.accepts = []
  one : s.started = true → s.stopped = false → s.accepts.length = 1

section Loop
variable {abi : Abi} {s t : Server} {e : ServerState.Event}

theorem Listening.of_started (h : Recorded t) (hintact : t.failed = false) (hs : t.started = true)
    (hone : t.stopped = false → t.accepts.length = 1) : Listening t := by
  refine ⟨h,hintact,?_,fun _ => hone⟩
  intro hfalse
  rw [hs] at hfalse
  cases hfalse

theorem Listening.runAccept (h : Listening s) {i : ℕ} {ip : Option String} {port : Option ℕ}
    {error : ErrorCode} (hi : s.accepts[i]? = some (some error)) (hrun : s.Running)
    (he : ¬ PeerGone s (.runAccept i ip port)) {t : Server}
    (ht : t = Server.acceptHandler error ip port {s with accepts := s.accepts.eraseIdx i}) :
    t.failed = false ∧ t.started = true ∧ t.accepts.length = 1 := by
  obtain ⟨hlt,_⟩ := List.getElem?_eq_some_iff.mp hi
  have hone := h.one hrun.1 hrun.2.1
  have hrest : (s.accepts.eraseIdx i ++ [none]).length = 1 := by
    rw [List.length_append,List.length_eraseIdx_of_lt hlt,hone]
    rfl
  by_cases herror : error = 0
  · subst herror
    rcases acceptHandler_cases ip port {s with accepts := s.accepts.eraseIdx i} with
      ⟨a,n,_,_,heq⟩ | ⟨hgone,_⟩
    · rw [ht,heq]
      exact ⟨h.intact,hrun.1,hrest⟩
    · exact absurd ⟨hrun,hi,hgone⟩ he
  · rw [ht,Server.acceptHandler,if_neg herror]
    exact ⟨h.intact,hrun.1,hrest⟩

theorem Listening.step (h : Listening s) (he : ¬ PeerGone s e)
    (hs : ServerState.step abi s e = some t) : Listening t := by
  have hrec := h.toRecorded.step hs
  cases e with
  | start =>
      obtain ⟨hstarted,rfl⟩ := step_start.mp hs
      apply Listening.of_started hrec h.intact rfl
      intro _
      simp [Server.start,Server.accept,h.idle hstarted]
  | acceptDone i error =>
      obtain ⟨_,hrun,rfl⟩ := step_acceptDone.mp hs
      apply Listening.of_started hrec h.intact hrun.1
      intro hstopped
      rw [List.length_set]
      exact h.one hrun.1 hstopped
  | runAccept i ip port =>
      obtain ⟨error,hi,hrun,ht⟩ := step_runAccept.mp hs
      obtain ⟨hintact,hstarted,hone⟩ := h.runAccept hi hrun he ht
      exact .of_started hrec hintact hstarted fun _ => hone
  | connection c e =>
      obtain ⟨conn,conn',_,hrun,_,_,ht⟩ := step_connection.mp hs
      have hframe : t.failed = s.failed ∧ t.started = s.started ∧ t.accepts = s.accepts := by
        rw [ht]
        unfold Server.closeConn
        split_ifs
        · split <;> exact ⟨rfl,rfl,rfl⟩
        · exact ⟨rfl,rfl,rfl⟩
      obtain ⟨hfailed,hstarted,haccepts⟩ := hframe
      apply Listening.of_started hrec (hfailed.trans h.intact) (hstarted.trans hrun.1)
      intro _
      rw [haccepts]
      exact h.one hrun.1 hrun.2.1
  | stop =>
      obtain ⟨hrun,hstop⟩ := step_stop.mp hs
      rw [stop_eq h.toRecorded hrun.2.2] at hstop
      cases hstop
      apply Listening.of_started hrec h.intact hrun.1
      intro hfalse
      cases hfalse

/-- `remote_endpoint` throws in the handler. -/
theorem Listening.peerGone (he : PeerGone s e) :
    ∃ t, ServerState.step abi s e = some t ∧ ¬ Accepting t := by
  cases e with
  | runAccept i ip port =>
      obtain ⟨hrun,hi,hgone⟩ := he
      refine ⟨_,step_accepted hrun hi,?_⟩
      intro haccepting
      rcases acceptHandler_cases ip port {s with accepts := s.accepts.eraseIdx i} with
        ⟨a,n,rfl,rfl,_⟩ | ⟨_,heq⟩
      · simp at hgone
      · rw [heq] at haccepting
        cases (haccepting hrun.1 hrun.2.1).1
  | start | acceptDone _ _ | connection _ _ | stop => exact absurd he id

end Loop

/-- The loop goes on in every state of a run exactly if in none of its accepts
the peer is gone before the handler runs. -/
theorem accept_loop_iff (abi : Abi) (es : List ServerState.Event) :
    AllStates (ServerState.step abi) Accepting {} es ↔
      AllSteps (ServerState.step abi) (fun s e => ¬ PeerGone s e) {} es := by
  apply allStates_iff_allSteps (I := Listening)
    (fun s h hstarted hstopped => ⟨h.intact,h.one hstarted hstopped⟩)
    (fun _ _ _ h he hs => h.step he hs)
  · exact fun _ _ _ he => Listening.peerGone (not_not.mp he)
  · exact ⟨recorded_init,rfl,fun _ => rfl,fun hfalse => by cases hfalse⟩

/-- The peer resets the connection before the handler runs. -/
theorem reset_ends_loop : ¬ ∀ es : List ServerState.Event,
    AllStates (ServerState.step (lp64 .little)) Accepting {} es := by
  intro h
  have hrun : ∃ s ∈ exec (ServerState.step (lp64 .little)) {}
      [.start,.acceptDone 0 0,.runAccept 0 none none],
      s.started = true ∧ s.stopped = false ∧ s.failed = true ∧ s.accepts = [] := by decide
  obtain ⟨s,hs,hstarted,hstopped,hfailed,_⟩ := hrun
  have hintact := ((h _).last hs hstarted hstopped).1
  rw [hfailed] at hintact
  cases hintact

/-! ### Stop -/

/-- A connection that was accepted, exists and has not been closed. -/
def Live (s : Server) (c : ℕ) : Prop := ∃ conn ∈ s.conns[c]?, conn.reads ≠ [] ∧ conn.isOpen = true

instance (s : Server) (c : ℕ) : Decidable (Live s c) := inferInstanceAs (Decidable (∃ _ ∈ _, _))

/-- `Stop` calls `Close` once on each live connection and on no other. -/
def StopsLive (abi : Abi) (s : Server) : Prop := ∃ t, ServerState.step abi s .stop = some t ∧
  ∀ c conn, s.conns[c]? = some conn → ∃ conn', t.conns[c]? = some conn' ∧
    conn'.closes = conn.closes + if Live s c then 1 else 0

/-- No connection is live but the one accepted last, and that one has not been
closed before if it still exists. -/
structure OnlyLast (s : Server) : Prop where
  last : ∀ c, Live s c → c + 1 = s.conns.length
  unclosed : ∀ c, c + 1 = s.conns.length → s.Held c → Live s c

section Stop
variable {abi : Abi} {s : Server}

theorem Live.held {c : ℕ} (h : Live s c) : s.Held c := by
  obtain ⟨conn,hconn,hreads,_⟩ := h
  exact ⟨conn,hconn,hreads⟩

/-- `Stop` calls `Close` once, on the last connection, if it still exists. -/
theorem closedLast_closes {c : ℕ} {conn : Connection} (hconn : s.conns[c]? = some conn) :
    ∃ conn', (closedLast s)[c]? = some conn' ∧
      conn'.closes = conn.closes + if c + 1 = s.conns.length ∧ s.Held c then 1 else 0 := by
  obtain ⟨hlt,_⟩ := List.getElem?_eq_some_iff.mp hconn
  have hheld : s.Held c ↔ conn.reads ≠ [] := by simp [Server.Held,hconn]
  unfold closedLast
  by_cases hc : c + 1 = s.conns.length
  · rw [← hc,Nat.add_sub_cancel,hconn]
    by_cases hreads : conn.reads = []
    · simp only [if_pos hreads]
      refine ⟨conn,hconn,?_⟩
      rw [if_neg fun hlast => hheld.mp hlast.2 hreads]
      rfl
    · simp only [if_neg hreads]
      refine ⟨conn.close,getElem?_set_of_eq_some hconn,?_⟩
      rw [if_pos ⟨trivial,hheld.mpr hreads⟩]
      rfl
  · refine ⟨conn,?_,?_⟩
    · split
      · exact hconn
      · split_ifs
        · exact hconn
        · rw [List.getElem?_set_ne (by omega)]
          exact hconn
    · rw [if_neg fun hlast => hc hlast.1]
      rfl

theorem stopsLive_iff (h : Recorded s) (hs : s.Running) : StopsLive abi s ↔ OnlyLast s := by
  have hstop : ServerState.step abi s .stop = some _ := step_stop.mpr ⟨hs,stop_eq h hs.2.2⟩
  constructor
  · intro hex
    obtain ⟨t,ht,hall⟩ := hex
    obtain rfl := Option.some.inj (hstop.symm.trans ht)
    -- equal counts mean that the two conditions agree
    have hlive : ∀ c conn, s.conns[c]? = some conn →
        (Live s c ↔ c + 1 = s.conns.length ∧ s.Held c) := by
      intro c conn hconn
      obtain ⟨u,hu,hcount⟩ := hall c conn hconn
      obtain ⟨v,hv,hlast⟩ := closedLast_closes hconn
      obtain rfl := Option.some.inj (hu.symm.trans hv)
      by_cases hl : Live s c
      · by_cases hr : c + 1 = s.conns.length ∧ s.Held c
        · exact iff_of_true hl hr
        · rw [if_pos hl] at hcount
          rw [if_neg hr] at hlast
          omega
      · by_cases hr : c + 1 = s.conns.length ∧ s.Held c
        · rw [if_neg hl] at hcount
          rw [if_pos hr] at hlast
          omega
        · exact iff_of_false hl hr
    constructor
    · intro c hl
      have ⟨conn,hconn,_⟩ := hl
      exact ((hlive c conn hconn).mp hl).1
    · intro c hc hheld
      have ⟨conn,hconn,_⟩ := hheld
      exact (hlive c conn hconn).mpr ⟨hc,hheld⟩
  · intro honly
    refine ⟨_,hstop,?_⟩
    intro c conn hconn
    obtain ⟨conn',hconn',hcloses⟩ := closedLast_closes hconn
    refine ⟨conn',hconn',?_⟩
    rw [hcloses]
    by_cases hl : Live s c
    · rw [if_pos hl,if_pos ⟨honly.last c hl,hl.held⟩]
    · rw [if_neg hl,if_neg fun hr => hl (honly.unclosed c hr.1 hr.2)]

end Stop

/-- In every state that a history of accepts and closes can reach, `Stop`
closes the live connections exactly if the last one is the only one. -/
theorem stop_closes_live_iff (abi : Abi) (es : List ServerState.Event) :
    AllStates (ServerState.step abi) (fun s => s.Running → (StopsLive abi s ↔ OnlyLast s)) {} es := by
  apply allStates_of_invariant (I := Recorded) ?_ ?_ recorded_init
  · exact fun _ _ _ h hs => h.step hs
  · exact fun _ h hs => stopsLive_iff h hs

/-- Of two live connections `Stop` closes the second. -/
theorem first_left_open : ¬ ∀ es : List ServerState.Event,
    AllStates (ServerState.step (lp64 .little))
      (fun s => s.Running → StopsLive (lp64 .little) s) {} es := by
  intro h
  have hrun : ∃ s ∈ exec (ServerState.step (lp64 .little)) {}
      [.start,.acceptDone 0 0,.runAccept 0 (some "10.0.0.1") (some 5000),.acceptDone 0 0,
        .runAccept 0 (some "10.0.0.2") (some 5000)],
      s.Running ∧ Live s 0 ∧ s.conns.length = 2 := by decide
  obtain ⟨s,hs,hrunning,hlive,hlen⟩ := hrun
  have honly := (stopsLive_iff (Recorded.run hs) hrunning).mp ((h _).last hs hrunning)
  have hlast := honly.last 0 hlive
  omega

end SindiaRpc.ServerConnections
