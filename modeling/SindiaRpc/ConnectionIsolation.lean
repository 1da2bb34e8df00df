import SindiaRpc.PromiseKeys

/-!
# Responses are matched by id alone

`SetResponse` gets the message and not its connection, so a response counts on
whichever connection it arrives. What a call returns is the body of a response
with the id it waits for; and messages from other connections than a given one
make no difference to it unless they are such responses.
-/
namespace SindiaRpc.ConnectionIsolation
open MessageFrames DispatcherTable PromiseTables RpcChannel RpcProcess GuardedRuns PromiseKeys
  ListUpdates

variable {κ : Type*}

/-! ### Where a returned body comes from -/

/-- A response with id `n` and this body has been dispatched. -/
def Responded (s : Process κ) (n : UInt32) (body : Bytes) : Prop :=
  ∃ k msg, (k,msg) ∈ s.received ∧ HasType msg .response ∧ msg.header.id = n ∧
    msg.dataString = some body

structure Sourced (s : Process κ) : Prop where
  keyed : Keyed s
  value : ∀ u body, s.channel.prommap.states u = .value body →
    ∃ n, Owns s n u ∧ Responded s n body
  result : ∀ u c, s.calls[u]? = some c → c.pc = .erase ∨ c.pc = .returned .rpcOk →
    s.channel.prommap.states u = .value c.res

section Sourced
variable {H : Bytes → ℕ} {o : ByteOrder} {s s' : Process κ} {e : Event κ} {t u : ℕ}
  {c c' : Invocation} {n : UInt32} {body : Bytes}

theorem Responded.step (h : Responded s n body) (hs : RpcProcess.step H o s e = some s') :
    Responded s' n body := by
  obtain ⟨k,msg,hmem,hmsg⟩ := h
  refine ⟨k,msg,?_,hmsg⟩
  rw [step_received hs]
  exact List.mem_append_left _ hmem

/-- A statement gives no promise a value. -/
theorem Statement.value (hst : Statement t s.channel c s'.channel c')
    (h : s'.channel.prommap.states u = .value body) :
    s.channel.prommap.states u = .value body := by
  generalize s'.channel = ch' at hst h
  cases hst with
  | register pc | erase pc => exact PromiseTable.states_discard_eq_value.mp h
  | stay | refuse _ | prepare _ _ _ _ | number _ _ _ | finish _ _ _ _ _ | ask _ | timeout _ _
  | ready _ _ | get _ _ _ | throw _ _ => exact h

/-- A call has its value where `get` found it. -/
theorem Statement.result {ch ch' : Rpcchannel κ} (hst : Statement t ch c ch' c')
    (hc : c'.pc = .erase ∨ c'.pc = .returned .rpcOk) :
    ch.prommap.states t = .value c'.res ∨
      (c.pc = .erase ∨ c.pc = .returned .rpcOk) ∧ c'.res = c.res := by
  cases hst with
  | stay => exact Or.inr ⟨hc,rfl⟩
  | get pc value done => exact Or.inl done
  | erase pc => exact Or.inr ⟨Or.inl pc,rfl⟩
  | prepare pc pc' msg after | finish pc pc' msg after id =>
      rcases hc with hc | hc
      · rw [show pc' = .erase from hc] at after
        cases after
      · rw [show pc' = .returned .rpcOk from hc] at after
        cases after
  | refuse _ | number _ _ _ | ask _ | register _ | timeout _ _ | ready _ _ | throw _ _ =>
      rcases hc with hc | hc <;> cases hc

theorem Sourced.step (h : Sourced s) (hs : RpcProcess.step H o s e = some s') : Sourced s' := by
  have kept : ∀ {n u body}, Owns s n u ∧ Responded s n body → Owns s' n u ∧ Responded s' n body :=
    fun hx => ⟨hx.1.step hs,hx.2.step hs⟩
  have keep : ∀ {u body}, s.channel.prommap.states u = .value body →
      s'.channel.prommap.states u = .value body := by
    intro u body hu
    rw [settled_step (by rw [hu]; simp) hs,hu]
  have hrec := step_received hs
  refine ⟨h.keyed.step hs,?_,?_⟩
  · intro u body hu
    cases step_change hs with
    | other e channel calls | connect conn channel calls | enter name req res channel calls =>
        rw [channel] at hu
        exact (h.value u body hu).imp fun n => kept
    | statement e t c c' event mem done calls =>
        exact (h.value u body (Statement.value done hu)).imp fun n => kept
    | response k msg prom value type find data pending channel calls =>
        rw [channel] at hu
        by_cases hprom : u = prom
        · subst hprom
          rw [PromiseTable.states_fulfil,Shared.value.injEq] at hu
          subst hu
          refine ⟨msg.header.id,(h.keyed.entry _ _ find).step hs,k,msg,?_,type,rfl,data⟩
          rw [hrec]
          simp [frame]
        · rw [PromiseTable.states_fulfil_of_ne _ value hprom] at hu
          exact (h.value u body hu).imp fun n => kept
  · intro u c hc hpc
    cases step_change hs with
    | other e channel calls | connect conn channel calls
    | response k msg prom value type find data pending channel calls =>
        rw [calls] at hc
        exact keep (h.result u c hc hpc)
    | enter name req res channel calls =>
        rw [calls] at hc
        rcases getElem?_concat_cases hc with hc | ⟨_,rfl⟩
        · exact keep (h.result u c hc hpc)
        · rcases hpc with hpc | hpc <;> cases hpc
    | statement e t d d' event mem done calls =>
        rw [calls] at hc
        rcases getElem?_set_cases hc with ⟨rfl,rfl⟩ | ⟨_,hc⟩
        · rcases Statement.result done hpc with hvalue | ⟨hold,hres⟩
          · exact keep hvalue
          · rw [hres]
            exact keep (h.result u d mem hold)
        · exact keep (h.result u c hc hpc)

theorem run_sourced {conn : Option κ} {es : List (Event κ)}
    (h : exec (RpcProcess.step H o) (init conn) es = some s) : Sourced s := by
  apply exec_preserves (RpcProcess.step H o) (P := Sourced) (fun u e v hu hv => hu.step hv) ?_ h
  refine ⟨init_keyed conn,?_,?_⟩
  · intro u body hu
    cases hu
  · intro u c hc
    cases hc

/-- A call that returned `RPCOK` got the body of a response with its key. -/
theorem returned_from_response {conn : Option κ} {es : List (Event κ)}
    (h : exec (RpcProcess.step H o) (init conn) es = some s) (hc : s.calls[u]? = some c)
    (hpc : c.pc = .returned .rpcOk) : ∃ k msg, Event.receive k msg ∈ es ∧
      HasType msg .response ∧ msg.header.id = c.callid ∧ msg.dataString = some c.res := by
  have hsrc := run_sourced h
  obtain ⟨n,hown,k,msg,hmem,hm,hid,hbody⟩ :=
    hsrc.value u c.res (hsrc.result u c hc (Or.inr hpc))
  refine ⟨k,msg,?_,hm,hid.trans (hown.of_call hc).2.symm,hbody⟩
  rw [run_received h] at hmem
  obtain ⟨e,he,hframe⟩ := List.mem_filterMap.mp (by simpa [init] using hmem)
  cases e <;> simp_all [frame]

end Sourced

/-! ### Two runs with different messages from elsewhere -/

/-- The call waits, or waited, under another key than `n`. -/
def Elsewhere (n : UInt32) (s : Process κ) (t : ℕ) : Prop :=
  ∃ c, s.calls[t]? = some c ∧ c.pc.asked = true ∧ c.callid ≠ n

/-- Two states that only calls under other keys than `n` can tell apart. -/
structure Alike (n : UInt32) (s s' : Process κ) : Prop where
  left : Keyed s
  right : Keyed s'
  conn : s.channel.conn = s'.channel.conn
  callid : s.channel.callid = s'.channel.callid
  entry : s.channel.prommap.find n = s'.channel.prommap.find n
  length : s.calls.length = s'.calls.length
  call : ∀ t, Elsewhere n s t ∧ Elsewhere n s' t ∨
    ¬ Elsewhere n s t ∧ s.calls[t]? = s'.calls[t]? ∧
      s.channel.prommap.states t = s'.channel.prommap.states t

section Alike
variable {H : Bytes → ℕ} {o : ByteOrder} {s s' u u' : Process κ} {e : Event κ} {t : ℕ}
  {c c' : Invocation} {n : UInt32} {k : κ} {msg : Message}

theorem not_elsewhere (hc : s.calls[t]? = some c) (h : ¬ Elsewhere n s t)
    (ha : c.pc.asked = true) : c.callid = n := by
  by_contra hne
  exact h ⟨c,hc,ha,hne⟩

theorem Owns.elsewhere {m : UInt32} (h : Owns s m t) (hm : m ≠ n) : Elsewhere n s t := by
  obtain ⟨c,hc,hreg,hkey⟩ := h
  exact ⟨c,hc,asked_of_registered hreg,hkey ▸ hm⟩

theorem Elsewhere.of_calls (h : s'.calls = s.calls) :
    Elsewhere n s' t ↔ Elsewhere n s t := by
  rw [Elsewhere,Elsewhere,h]

theorem Elsewhere.symm_iff (h : s.calls[t]? = s'.calls[t]?) :
    Elsewhere n s t ↔ Elsewhere n s' t := by
  rw [Elsewhere,Elsewhere,h]

namespace Alike

theorem symm (h : Alike n s s') : Alike n s' s where
  left := h.right
  right := h.left
  conn := h.conn.symm
  callid := h.callid.symm
  entry := h.entry.symm
  length := h.length.symm
  call t := by
    rcases h.call t with ⟨hl,hr⟩ | ⟨hl,hc,hst⟩
    · exact Or.inl ⟨hr,hl⟩
    · exact Or.inr ⟨fun hr => hl ((Elsewhere.symm_iff hc).mpr hr),hc.symm,hst.symm⟩

/-- A change on the left that concerns only calls elsewhere. -/
theorem change_left (h : Alike n s s') (hu : Keyed u)
    (hconn : u.channel.conn = s.channel.conn) (hcallid : u.channel.callid = s.channel.callid)
    (hentry : u.channel.prommap.find n = s.channel.prommap.find n)
    (hlength : u.calls.length = s.calls.length)
    (hthere : ∀ t, Elsewhere n s t → Elsewhere n u t)
    (hcall : ∀ t, ¬ Elsewhere n s t → u.calls[t]? = s.calls[t]? ∧
      u.channel.prommap.states t = s.channel.prommap.states t) : Alike n u s' where
  left := hu
  right := h.right
  conn := hconn.trans h.conn
  callid := hcallid.trans h.callid
  entry := hentry.trans h.entry
  length := hlength.trans h.length
  call t := by
    rcases h.call t with ⟨hl,hr⟩ | ⟨hl,hc,hst⟩
    · exact Or.inl ⟨hthere t hl,hr⟩
    · obtain ⟨huc,hust⟩ := hcall t hl
      exact Or.inr ⟨fun hx => hl ((Elsewhere.symm_iff huc).mp hx),huc.trans hc,hust.trans hst⟩

theorem unchanged_left (h : Alike n s s') (hs : step H o s e = some u)
    (hchannel : u.channel = s.channel) (hcalls : u.calls = s.calls) : Alike n u s' := by
  apply h.change_left (h.left.step hs) (by rw [hchannel]) (by rw [hchannel]) (by rw [hchannel])
    (by rw [hcalls])
  · exact fun t => (Elsewhere.of_calls hcalls).mpr
  · exact fun t _ => ⟨by rw [hcalls],by rw [hchannel]⟩

/-- A message that is no response with id `n`. -/
theorem receive_left (h : Alike n s s') (hm : ¬ (HasType msg .response ∧ msg.header.id = n))
    (hs : step H o s (.receive k msg) = some u) : Alike n u s' := by
  have hkeyed := h.left.step hs
  cases step_change hs with
  | other e channel calls => exact h.unchanged_left hs channel calls
  | statement e t c c' event mem done calls => rcases event with hev | ⟨hev,_⟩ <;> cases hev
  | response k msg prom value type find data pending channel calls =>
      have hid : msg.header.id ≠ n := fun hn => hm ⟨type,hn⟩
      have hprom := Owns.elsewhere (h.left.entry _ _ find) hid
      apply h.change_left hkeyed (by rw [channel]) (by rw [channel]) (by rw [channel]; rfl)
        (by rw [calls])
      · exact fun t => (Elsewhere.of_calls calls).mpr
      · intro t ht
        refine ⟨by rw [calls],?_⟩
        rw [channel]
        apply PromiseTable.states_fulfil_of_ne
        intro heq
        subst heq
        exact ht hprom

/-- The table after a statement of a call with another key. -/
theorem statement_elsewhere {ch : Rpcchannel κ} (hst : Statement t s.channel c ch c')
    (hkeyed : Keyed s) (ha : c.pc.asked = true) (hne : c.callid ≠ n) :
    ch.conn = s.channel.conn ∧ ch.callid = s.channel.callid ∧
      ch.prommap.find n = s.channel.prommap.find n ∧
      ∀ v, ¬ Elsewhere n s v → ch.prommap.states v = s.channel.prommap.states v := by
  have hdiscard : ∀ v, ¬ Elsewhere n s v →
      (s.channel.prommap.discard c.callid).states v = s.channel.prommap.states v := by
    intro v hv
    apply PromiseTable.states_discard_of_ne
    intro hfind
    exact hv (Owns.elsewhere (hkeyed.entry _ _ hfind) hne)
  cases hst with
  | register pc =>
      exact ⟨rfl,rfl,PromiseTable.find_assign_of_ne (Ne.symm hne),hdiscard⟩
  | erase pc => exact ⟨rfl,rfl,PromiseTable.find_erase_of_ne (Ne.symm hne),hdiscard⟩
  | number pc msg id => simp [pc,Pc.asked] at ha
  | stay | refuse _ | prepare _ _ _ _ | finish _ _ _ _ _ | ask _ | timeout _ _
  | ready _ _ | get _ _ _ | throw _ _ => exact ⟨rfl,rfl,rfl,fun _ _ => rfl⟩

/-- A statement of a call with another key. -/
theorem statement_left (h : Alike n s s') (ht : Elsewhere n s t)
    (he : e = .run t ∨ e = .expire t) (hs : step H o s e = some u) : Alike n u s' := by
  have hkeyed := h.left.step hs
  obtain ⟨d,hd,ha,hne⟩ := ht
  cases step_change hs with
  | other e channel calls => exact h.unchanged_left hs channel calls
  | connect conn channel calls => rcases he with he | he <;> cases he
  | enter name req res channel calls => rcases he with he | he <;> cases he
  | response k msg prom value type find data pending channel calls =>
      rcases he with he | he <;> cases he
  | statement e v c c' event mem done calls =>
      obtain rfl : t = v := by
        rcases he with rfl | rfl <;> rcases event with hev | ⟨hev,_⟩ <;> cases hev <;> rfl
      obtain rfl := Option.some.inj (hd.symm.trans mem)
      obtain ⟨hconn,hcallid,hentry,hstates⟩ := statement_elsewhere done h.left ha hne
      obtain ⟨ha',hkey,_⟩ := done.asked ha
      apply h.change_left hkeyed hconn hcallid hentry (by rw [calls,List.length_set])
      · intro v hex
        rcases hex with ⟨x,hx,hxa,hxk⟩
        by_cases hv : v = t
        · subst hv
          refine ⟨c',?_,ha',hkey ▸ hne⟩
          rw [calls]
          exact getElem?_set_of_eq_some mem
        · refine ⟨x,?_,hxa,hxk⟩
          rw [calls,List.getElem?_set_ne (Ne.symm hv)]
          exact hx
      · intro v hv
        refine ⟨?_,hstates v hv⟩
        have hne' : t ≠ v := by
          intro heq
          subst heq
          exact hv ⟨d,hd,ha,hne⟩
        rw [calls,List.getElem?_set_ne hne']

end Alike

/-- What a statement does to the table. -/
def tableAfter (t : ℕ) (c : Invocation) (p : PromiseTable UInt32 Bytes) :
    PromiseTable UInt32 Bytes :=
  match c.pc with
  | .register => p.assign c.callid t
  | .erase => p.erase c.callid
  | _ => p

/-- The outcome of a statement depends on the connection, the counter and the
state of the call's own promise. -/
theorem getResponse_agree {ch ch' : Rpcchannel κ}
    (hst : ch.prommap.states t = ch'.prommap.states t) :
    (ch.getResponse t c).call = (ch'.getResponse t c).call := by
  unfold Rpcchannel.getResponse
  rw [hst]
  split
  · rfl
  · split_ifs <;> rfl
  · split <;> rfl
  · rfl
  · rfl

theorem getResponse_table (ch : Rpcchannel κ) (t : ℕ) (c : Invocation) :
    (ch.getResponse t c).channel = {ch with prommap := tableAfter t c ch.prommap} := by
  cases hpc : c.pc with
  | wait =>
      simp only [Rpcchannel.getResponse,tableAfter,hpc]
      split_ifs <;> rfl
  | get =>
      simp only [Rpcchannel.getResponse,tableAfter,hpc]
      split <;> rfl
  | entry | construct | setType | setId | setHash | setErrcode | write | loadId | register | erase
  | returned _ | threw => simp only [Rpcchannel.getResponse,tableAfter,hpc]

/-- The counter after a statement. -/
def counterAfter (c : Invocation) (callid : UInt32) : UInt32 :=
  if c.pc = .setId then callid + 1 else callid

theorem call_channel {ch : Rpcchannel κ} {x : Effect κ} (h : ch.call H o t c = .ok x) :
    x.channel = {ch with
      callid := counterAfter c ch.callid
      prommap := tableAfter t c ch.prommap} := by
  cases hpc : c.pc with
  | entry =>
      simp only [Rpcchannel.call,hpc] at h
      split at h <;> (cases h; simp [counterAfter,tableAfter,hpc])
  | construct =>
      simp only [Rpcchannel.call,hpc] at h
      split at h <;> cases h
      simp [counterAfter,tableAfter,hpc]
  | write =>
      simp only [Rpcchannel.call,hpc] at h
      split at h <;> cases h
      simp [counterAfter,tableAfter,hpc]
  | setType | setId | setHash | setErrcode | loadId =>
      simp only [Rpcchannel.call,hpc] at h
      cases h
      simp [counterAfter,tableAfter,hpc]
  | register | wait | get | erase | returned _ | threw =>
      simp only [Rpcchannel.call,hpc] at h
      cases h
      rw [getResponse_table]
      simp [counterAfter,hpc]

theorem call_agree {ch ch' : Rpcchannel κ} {x x' : Effect κ} (hconn : ch.conn = ch'.conn)
    (hcallid : ch.callid = ch'.callid) (hst : ch.prommap.states t = ch'.prommap.states t)
    (h : ch.call H o t c = .ok x) (h' : ch'.call H o t c = .ok x') : x.call = x'.call := by
  cases hpc : c.pc with
  | entry | write =>
      simp only [Rpcchannel.call,hpc] at h h'
      rw [← hconn] at h'
      cases hk : ch.conn <;> simp only [hk] at h h' <;> cases h
      all_goals
        cases h'
        rfl
  | construct =>
      simp only [Rpcchannel.call,hpc] at h h'
      cases hmsg : Message.ofData o c.req with
      | none => simp [hmsg] at h
      | some msg =>
          simp only [hmsg] at h h'
          cases h
          cases h'
          rfl
  | setId | loadId =>
      simp only [Rpcchannel.call,hpc,hcallid] at h h'
      cases h
      cases h'
      rfl
  | setType | setHash | setErrcode =>
      simp only [Rpcchannel.call,hpc] at h h'
      cases h
      cases h'
      rfl
  | register | wait | get | erase | returned _ | threw =>
      simp only [Rpcchannel.call,hpc] at h h'
      cases h
      cases h'
      exact getResponse_agree hst

theorem states_tableAfter {p q : PromiseTable UInt32 Bytes} {v : ℕ}
    (hfind : c.pc.asked = true → p.find c.callid = q.find c.callid)
    (hst : p.states v = q.states v) :
    (tableAfter t c p).states v = (tableAfter t c q).states v := by
  cases hpc : c.pc with
  | register | erase =>
      simp only [tableAfter,hpc,PromiseTable.states_assign,PromiseTable.states_erase]
      exact PromiseTable.states_discard_congr (hfind (by rw [hpc]; rfl)) hst
  | entry | construct | setType | setId | setHash | setErrcode | write | loadId | wait | get
  | returned _ | threw =>
      simp only [tableAfter,hpc]
      exact hst

theorem find_tableAfter {p q : PromiseTable UInt32 Bytes}
    (hkey : c.pc.asked = true → c.callid = n) (hfind : p.find n = q.find n) :
    (tableAfter t c p).find n = (tableAfter t c q).find n := by
  cases hpc : c.pc with
  | register | erase =>
      simp [tableAfter,hpc,hkey (by rw [hpc]; rfl)]
  | entry | construct | setType | setId | setHash | setErrcode | write | loadId | wait | get
  | returned _ | threw =>
      simp only [tableAfter,hpc]
      exact hfind

namespace Alike

/-- The same statement, on both sides, of a call that is not elsewhere. -/
theorem apply_both (h : Alike n s s') (ht : ¬ Elsewhere n s t) (hc : s.calls[t]? = some c)
    {x x' : Effect κ} {m : UInt32} (hcall : x.call = x'.call)
    (hx : x.channel = {s.channel with callid := m, prommap := tableAfter t c s.channel.prommap})
    (hx' : x'.channel =
      {s'.channel with callid := m, prommap := tableAfter t c s'.channel.prommap})
    (hu : Keyed (s.apply t x)) (hu' : Keyed (s'.apply t x')) :
    Alike n (s.apply t x) (s'.apply t x') := by
  have hkey : c.pc.asked = true → c.callid = n := not_elsewhere hc ht
  have hself : s'.calls[t]? = some c := by
    rcases h.call t with ⟨hl,_⟩ | ⟨_,hsame,_⟩
    · exact absurd hl ht
    · rw [← hsame]
      exact hc
  have hfind : c.pc.asked = true →
      s.channel.prommap.find c.callid = s'.channel.prommap.find c.callid := by
    intro ha
    rw [hkey ha]
    exact h.entry
  refine ⟨hu,hu',?_,?_,?_,?_,?_⟩
  · change x.channel.conn = x'.channel.conn
    rw [hx,hx']
    exact h.conn
  · change x.channel.callid = x'.channel.callid
    rw [hx,hx']
  · change x.channel.prommap.find n = x'.channel.prommap.find n
    rw [hx,hx']
    exact find_tableAfter hkey h.entry
  · simp only [Process.apply,List.length_set]
    exact h.length
  · intro v
    have hstates : s.channel.prommap.states v = s'.channel.prommap.states v →
        (s.apply t x).channel.prommap.states v = (s'.apply t x').channel.prommap.states v := by
      intro hst
      change x.channel.prommap.states v = x'.channel.prommap.states v
      rw [hx,hx']
      exact states_tableAfter hfind hst
    by_cases hv : t = v
    · subst hv
      have hsame : (s.apply t x).calls[t]? = (s'.apply t x').calls[t]? := by
        rw [Process.calls_apply_self hc x,Process.calls_apply_self hself x',hcall]
      rcases h.call t with ⟨hl,_⟩ | ⟨_,_,hst⟩
      · exact absurd hl ht
      · by_cases hnew : Elsewhere n (s.apply t x) t
        · exact Or.inl ⟨hnew,(Elsewhere.symm_iff hsame).mp hnew⟩
        · exact Or.inr ⟨hnew,hsame,hstates hst⟩
    · have hl : Elsewhere n (s.apply t x) v ↔ Elsewhere n s v :=
        Elsewhere.symm_iff (s.calls_apply_ne hv x)
      have hr : Elsewhere n (s'.apply t x') v ↔ Elsewhere n s' v :=
        Elsewhere.symm_iff (s'.calls_apply_ne hv x')
      rcases h.call v with ⟨hvl,hvr⟩ | ⟨hvl,hvc,hst⟩
      · exact Or.inl ⟨hl.mpr hvl,hr.mpr hvr⟩
      · refine Or.inr ⟨fun hx => hvl (hl.mp hx),?_,hstates hst⟩
        rw [s.calls_apply_ne hv x,s'.calls_apply_ne hv x']
        exact hvc

theorem run_both (h : Alike n s s') (ht : ¬ Elsewhere n s t)
    (hs : step H o s (.run t) = some u) (hs' : step H o s' (.run t) = some u') :
    Alike n u u' := by
  have hu := h.left.step hs
  have hu' := h.right.step hs'
  obtain ⟨c,x,hc,hx,rfl⟩ := step_run.mp hs
  obtain ⟨c',x',hc',hx',rfl⟩ := step_run.mp hs'
  rcases h.call t with ⟨hl,_⟩ | ⟨_,hsame,hst⟩
  · exact absurd hl ht
  · obtain rfl := Option.some.inj (hc.symm.trans (hsame.trans hc'))
    apply h.apply_both ht hc (call_agree h.conn h.callid hst hx hx') (call_channel hx) ?_ hu hu'
    rw [h.callid]
    exact call_channel hx'

theorem expire_both (h : Alike n s s') (ht : ¬ Elsewhere n s t)
    (hs : step H o s (.expire t) = some u) (hs' : step H o s' (.expire t) = some u') :
    Alike n u u' := by
  have hu := h.left.step hs
  have hu' := h.right.step hs'
  obtain ⟨c,hc,hpc,rfl⟩ := step_expire.mp hs
  obtain ⟨c',hc',_,rfl⟩ := step_expire.mp hs'
  have htable : ∀ ch : Rpcchannel κ, (ch.expire t c).channel =
      {ch with callid := ch.callid, prommap := tableAfter t c ch.prommap} := by
    intro ch
    unfold Rpcchannel.expire
    split_ifs
    · simp [tableAfter,hpc]
    · exact getResponse_table ch t c
  rcases h.call t with ⟨hl,_⟩ | ⟨_,hsame,hst⟩
  · exact absurd hl ht
  · obtain rfl := Option.some.inj (hc.symm.trans (hsame.trans hc'))
    apply h.apply_both ht hc ?_ (htable s.channel) ?_ hu hu'
    · unfold Rpcchannel.expire
      rw [← hst]
      split_ifs
      · rfl
      · exact getResponse_agree hst
    · rw [h.callid]
      exact htable s'.channel

/-- A response with id `n` finds the same promise on both sides. -/
theorem answer_both (h : Alike n s s') (hm : HasType msg .response) (hid : msg.header.id = n)
    (hs : step H o s (.receive k msg) = some u) (hs' : step H o s' (.receive k msg) = some u') :
    Alike n u u' := by
  have hu := h.left.step hs
  have hu' := h.right.step hs'
  obtain ⟨d,hd,rfl⟩ := step_receive.mp hs
  obtain ⟨d',hd',rfl⟩ := step_receive.mp hs'
  have hset := setResponse_cases (dispatch_response hm hd).1
  have hset' := setResponse_cases (dispatch_response hm hd').1
  rw [hid] at hset hset'
  rcases hset with ⟨hnone,hch⟩ | ⟨prom,value,hfind,hdata,_,hch⟩
  · rcases hset' with ⟨_,hch'⟩ | ⟨prom',_,hfind',_⟩
    · exact ((h.unchanged_left hs hch rfl).symm.unchanged_left hs' hch' rfl).symm
    · rw [← h.entry,hnone] at hfind'
      cases hfind'
  · rcases hset' with ⟨hnone',_⟩ | ⟨prom',value',hfind',hdata',_,hch'⟩
    · rw [← h.entry,hfind] at hnone'
      cases hnone'
    · obtain rfl := Option.some.inj (hfind.symm.trans (h.entry.trans hfind'))
      obtain rfl := Option.some.inj (hdata.symm.trans hdata')
      refine ⟨hu,hu',?_,?_,?_,h.length,?_⟩
      · change d.channel.conn = d'.channel.conn
        rw [hch,hch']
        exact h.conn
      · change d.channel.callid = d'.channel.callid
        rw [hch,hch']
        exact h.callid
      · change d.channel.prommap.find n = d'.channel.prommap.find n
        rw [hch,hch']
        exact h.entry
      · intro v
        refine (h.call v).imp_right ?_
        intro hex
        rcases hex with ⟨hl,hc,hst⟩
        refine ⟨hl,hc,?_⟩
        change d.channel.prommap.states v = d'.channel.prommap.states v
        rw [hch,hch']
        by_cases hv : v = prom
        · rw [hv,PromiseTable.states_fulfil,PromiseTable.states_fulfil]
        · rw [PromiseTable.states_fulfil_of_ne _ _ hv,PromiseTable.states_fulfil_of_ne _ _ hv]
          exact hst

theorem enter_both (h : Alike n s s') {name req res : Bytes}
    (hs : step H o s (.call name req res) = some u)
    (hs' : step H o s' (.call name req res) = some u') : Alike n u u' := by
  have hu := h.left.step hs
  have hu' := h.right.step hs'
  cases hs
  cases hs'
  refine ⟨hu,hu',h.conn,h.callid,h.entry,by simp [h.length],?_⟩
  intro v
  have hnew : ∀ (a : Process κ) (c : Invocation), c.pc = .entry →
      (Elsewhere n {a with calls := a.calls ++ [c]} v ↔ Elsewhere n a v) := by
    intro a c hpc
    constructor
    · intro hex
      rcases hex with ⟨d,hd,hda,hdk⟩
      rcases getElem?_concat_cases hd with hd | ⟨_,rfl⟩
      · exact ⟨d,hd,hda,hdk⟩
      · rw [hpc] at hda
        cases hda
    · intro hex
      rcases hex with ⟨d,hd,hda,hdk⟩
      exact ⟨d,getElem?_concat_of_eq_some hd,hda,hdk⟩
  rcases h.call v with ⟨hl,hr⟩ | ⟨hl,hc,hst⟩
  · exact Or.inl ⟨(hnew s _ rfl).mpr hl,(hnew s' _ rfl).mpr hr⟩
  · refine Or.inr ⟨fun hx => hl ((hnew s _ rfl).mp hx),?_,hst⟩
    simp only [List.getElem?_append,hc,h.length]

end Alike
end Alike

/-! ### What other connections can change -/

theorem alike_both {H : Bytes → ℕ} {o : ByteOrder} {n : UInt32} {s s' u u' : Process κ}
    {e : Event κ} (h : Alike n s s') (hs : step H o s e = some u)
    (hs' : step H o s' e = some u') : Alike n u u' := by
  have hu := h.left.step hs
  have hu' := h.right.step hs'
  cases e with
  | reghandler name handler =>
      cases hs
      cases hs'
      exact ⟨hu,hu',h.conn,h.callid,h.entry,h.length,h.call⟩
  | setConnection conn =>
      cases hs
      cases hs'
      exact ⟨hu,hu',rfl,h.callid,h.entry,h.length,h.call⟩
  | call name req res => exact h.enter_both hs hs'
  | run t =>
      rcases h.call t with ⟨hl,hr⟩ | ⟨hl,_⟩
      · exact ((h.statement_left hl (Or.inl rfl) hs).symm.statement_left hr (Or.inl rfl) hs').symm
      · exact h.run_both hl hs hs'
  | expire t =>
      rcases h.call t with ⟨hl,hr⟩ | ⟨hl,_⟩
      · exact ((h.statement_left hl (Or.inr rfl) hs).symm.statement_left hr (Or.inr rfl) hs').symm
      · exact h.expire_both hl hs hs'
  | receive k msg =>
      by_cases hm : HasType msg .response ∧ msg.header.id = n
      · exact h.answer_both hm.1 hm.2 hs hs'
      · exact ((h.receive_left hm hs).symm.receive_left hm hs').symm

theorem init_alike (n : UInt32) (conn : Option κ) : Alike n (init conn) (init conn) := by
  refine ⟨init_keyed conn,init_keyed conn,rfl,rfl,rfl,rfl,?_⟩
  intro t
  refine Or.inr ⟨?_,rfl,rfl⟩
  intro hex
  rcases hex with ⟨c,hc,_⟩
  cases hc

section Unwinding
variable [DecidableEq κ]

/-- Everything but the messages from other connections than `c`, of which only
the responses with id `n` are seen. -/
def visible (c : κ) (n : UInt32) : Event κ → Bool
  | .receive k msg => k = c || (decide (HasType msg .response) && msg.header.id = n)
  | _ => true

/-- Two runs that differ only in what is not visible end alike. -/
theorem runs_alike {H : Bytes → ℕ} {o : ByteOrder} {conn : Option κ} {c : κ} {n : UInt32}
    {es fs : List (Event κ)} {s s' : Process κ}
    (heq : es.filter (visible c n) = fs.filter (visible c n))
    (hs : exec (step H o) (init conn) es = some s)
    (hs' : exec (step H o) (init conn) fs = some s') : Alike n s s' := by
  apply unwinding (R := Alike n) ?_ ?_ ?_ heq (init_alike n conn) hs hs'
  · intro a b e a' hab he ha
    cases e with
    | receive k msg =>
        apply hab.receive_left ?_ ha
        intro hex
        rcases hex with ⟨hm,hid⟩
        simp [visible,hm,hid] at he
    | reghandler _ _ | setConnection _ | call _ _ _ | run _ | expire _ => cases he
  · intro a b e b' hab he hb
    cases e with
    | receive k msg =>
        apply Alike.symm
        apply hab.symm.receive_left ?_ hb
        intro hex
        rcases hex with ⟨hm,hid⟩
        simp [visible,hm,hid] at he
    | reghandler _ _ | setConnection _ | call _ _ _ | run _ | expire _ => cases he
  · exact fun a b e a' b' hab _ ha hb => alike_both hab ha hb

/-- A call returns `RPCOK` only with the body of a response that carries the id
it waits for; and what arrives on other connections than `c`, such responses
apart, makes no difference to it. -/
theorem outcome_by_id (H : Bytes → ℕ) (o : ByteOrder) (conn : Option κ) (c : κ) :
    (∀ es s (t : ℕ) d, exec (step H o) (init conn) es = some s → s.calls[t]? = some d →
      d.pc = .returned .rpcOk → ∃ k msg, Event.receive k msg ∈ es ∧ HasType msg .response ∧
        msg.header.id = d.callid ∧ msg.dataString = some d.res) ∧
    ∀ es fs s s' (t : ℕ) d, exec (step H o) (init conn) es = some s →
      exec (step H o) (init conn) fs = some s' → s.calls[t]? = some d → d.pc.asked = true →
      es.filter (visible c d.callid) = fs.filter (visible c d.callid) →
        s'.calls[t]? = some d := by
  refine ⟨fun es s t d hs hd hpc => returned_from_response hs hd hpc,?_⟩
  intro es fs s s' t d hs hs' hd ha heq
  rcases (runs_alike heq hs hs').call t with ⟨⟨d',hd',_,hne⟩,_⟩ | ⟨_,hsame,_⟩
  · obtain rfl := Option.some.inj (hd.symm.trans hd')
    exact absurd rfl hne
  · rw [← hsame]
    exact hd

end Unwinding

/-- A response with the first id of a process. -/
def foreignResponse : Message := (Message.build .little [9] 2 1 0 0).getD .empty

/-- A request is written to connection 0 and answered on connection 1. -/
def crossedRun : List (Event ℕ) :=
  .call [1] [] [] :: List.replicate 9 (.run 0) ++ [.receive 1 foreignResponse,.run 0,.run 0,.run 0]

/-- Before that, a response with an id that nobody waits for arrives on connection 1. -/
def crowdedRun : List (Event ℕ) :=
  .receive 1 ((Message.build .little [8] 2 7 0 0).getD .empty) :: crossedRun

theorem outcome_by_id_crossed :
    ∃ s ∈ exec (step (fun _ => 0) .little) (init (some 0)) crossedRun, ∃ d ∈ s.calls[0]?,
      d.pc = .returned .rpcOk ∧ (∃ k msg, Event.receive k msg ∈ crossedRun ∧
        HasType msg .response ∧ msg.header.id = d.callid ∧ msg.dataString = some d.res) ∧
      ∃ s' ∈ exec (step (fun _ => 0) .little) (init (some 0)) crowdedRun,
        s'.received.length = s.received.length + 1 ∧ s'.calls[0]? = some d := by
  have hrun : ∃ s ∈ exec (step (fun _ => 0) .little) (init (some 0)) crossedRun,
      ∃ d ∈ s.calls[0]?, d.pc = .returned .rpcOk ∧ d.callid = 1 ∧
        ∃ s' ∈ exec (step (fun _ => 0) .little) (init (some 0)) crowdedRun,
          s'.received.length = s.received.length + 1 := by decide
  obtain ⟨s,hs,d,hd,hpc,hid,s',hs',hmore⟩ := hrun
  have hvisible : crossedRun.filter (visible 0 d.callid) =
      crowdedRun.filter (visible 0 d.callid) := by
    rw [hid,crowdedRun,List.filter_cons_of_neg (by decide)]
  have hboth := outcome_by_id (fun _ => 0) .little (some 0) 0
  exact ⟨s,hs,d,hd,hpc,hboth.1 crossedRun s 0 d hs hd hpc,s',hs',hmore,
    hboth.2 crossedRun crowdedRun s s' 0 d hs hs' hd (by rw [hpc]; rfl) hvisible⟩

theorem foreign_response_accepted :
    ¬ ∀ (es : List (Event ℕ)) (s : Process ℕ) (t : ℕ) (d : Invocation) (c : ℕ),
      exec (step (fun _ => 0) .little) (init (some 0)) es = some s → s.calls[t]? = some d →
      d.pc = .returned .rpcOk → (c,d.msg) ∈ s.writes →
        ∃ msg, Event.receive c msg ∈ es ∧ HasType msg .response ∧
          msg.dataString = some d.res := by
  intro h
  have hrun : ∃ s ∈ exec (step (fun _ => 0) .little) (init (some 0)) crossedRun,
      ∃ d ∈ s.calls[0]?, d.pc = .returned .rpcOk ∧ (0,d.msg) ∈ s.writes :=
    ⟨_,rfl,_,rfl,rfl,List.mem_singleton.mpr rfl⟩
  obtain ⟨s,hs,d,hd,hpc,hwrite⟩ := hrun
  obtain ⟨msg,hmsg,_⟩ := h crossedRun s 0 d 0 hs hd hpc hwrite
  simp [crossedRun] at hmsg

end SindiaRpc.ConnectionIsolation
