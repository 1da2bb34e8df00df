import SindiaRpc.FrameBounds

/-!
# Which handler a request runs

A name is known to the dispatcher by the low 32 bits of its hash, in the table
and in the header alike, and `emplace` keeps the first handler stored under
them. A request runs the handler its name is routed to by that key.
-/
namespace SindiaRpc.Routing
open MessageFrames DispatcherTable RpcChannel RpcProcess GuardedRuns FrameBounds KeyedRoutes

variable {κ : Type*}

/-- The message makes `dispatch` look for a handler. -/
def Handles (msg : Message) : Prop := HasType msg .request ∨ HasType msg .notify

instance (msg : Message) : Decidable (Handles msg) := inferInstanceAs (Decidable (_ ∨ _))

section Dispatch
variable {o : ByteOrder} {callmap : Callmap} {conn : Option κ} {msg : Message}
  {ch : Rpcchannel κ} {d : Dispatched κ} {body : Bytes}

theorem dispatch_notify {handled : Handled} (hm : HasType msg .notify)
    (hhandle : handle callmap msg [] = .ok handled) :
    dispatch o callmap conn msg ch = .ok ⟨ch,[],handled.ran⟩ := by
  rw [dispatch,if_neg (types_apart hm (by decide)),if_neg (types_apart hm (by decide)),if_pos hm,
    hhandle]

/-- What `dispatch` runs is what `handle` runs. -/
theorem dispatch_ran (hm : Handles msg) (hbody : msg.dataString = some body)
    (h : dispatch o callmap conn msg ch = .ok d) :
    d.ran = (bound callmap msg.getHash).toList.map fun h => (h,body) := by
  have hhandle := handle_eq callmap hbody
  rcases hm with hm | hm
  · rw [dispatch_request hm hhandle] at h
    split at h
    · cases h
    · cases h
      rfl
  · rw [dispatch_notify hm hhandle] at h
    cases h
    rfl

end Dispatch

/-- How the registrations `regs` route requests for `name` in a state with
these handlers. -/
structure Routes (H : Bytes → ℕ) (o : ByteOrder) (regs : List (Bytes × Handler)) (name : Bytes)
    (s : Process κ) : Prop where
  /-- A request runs the handler that was first registered under the key, and
  no other. -/
  runs : ∀ msg body, msg.header.hash = UInt32.ofNat (H name) → Handles msg →
    msg.dataString = some body →
      (∃ handled, handle s.callmap msg [] = .ok handled ∧
        handled.ran = (route (hashKey H) regs name).join.toList.map fun h => (h,body)) ∧
      ∀ k s', step H o s (.receive k msg) = some s' →
        s'.ran = s.ran ++ (route (hashKey H) regs name).join.toList.map fun h => (h,body)
  /-- With a key of its own a name runs its own handlers only, and the first one
  if that is not empty. -/
  own : Unshared (hashKey H) regs name →
    (∀ h, (route (hashKey H) regs name).join = some h → (name,some h) ∈ regs) ∧
    ∀ h, (regs.find? fun r => r.1 = name) = some (name,some h) →
      (route (hashKey H) regs name).join = some h
  /-- Registering another name does not touch a registered one. -/
  kept : name ∈ regs.map Prod.fst → ∀ other h,
    bound (reghandler H other h s.callmap) (hashKey H name) = bound s.callmap (hashKey H name)

/-- In every run a request is routed by the low 32 bits of its name's hash. -/
theorem requests_routed (H : Bytes → ℕ) (o : ByteOrder) (conn : Option κ) (es : List (Event κ))
    (s : Process κ) (name : Bytes) (hrun : exec (step H o) (init conn) es = some s) :
    Routes H o (es.filterMap registration) name s where
  runs := by
    intro msg body hhash hm hbody
    have hbound : bound s.callmap msg.getHash =
        (route (hashKey H) (es.filterMap registration) name).join := by
      rw [← run_bound hrun,Message.getHash,hhash]
      rfl
    rw [← hbound]
    refine ⟨⟨_,handle_eq _ hbody,rfl⟩,?_⟩
    intro k s' hs
    obtain ⟨d,hd,rfl⟩ := step_receive.mp hs
    rw [Process.deliver,dispatch_ran hm hbody hd]
  own := by
    intro hown
    constructor
    · intro h hroute
      exact mem_of_route hown (Option.join_eq_some_iff.mp hroute)
    · intro h hfirst
      rw [route_unshared hown,hfirst]
      rfl
  kept := by
    intro hname other h
    have hsnoc : reghandler H other h (registered H (es.filterMap registration) ∅) =
        registered H (es.filterMap registration ++ [(other,h)]) ∅ := by
      simp [registered]
    have hcallmap : s.callmap = registered H (es.filterMap registration) ∅ := run_callmap hrun
    rw [hcallmap,hsnoc,bound_registered,bound_registered,route_append hname]

/-- The second name has the key of the first, the third has its own. -/
def threeNames : List (Event ℕ) :=
  [.reghandler [1] (some id),.reghandler [2] (some List.reverse),
    .reghandler [3,4] (some List.reverse)]

theorem requests_routed_three :
    ∃ s ∈ exec (step List.length .little) (init (some 0)) threeNames,
      Routes List.length .little (threeNames.filterMap registration) [2] s ∧
        Routes List.length .little (threeNames.filterMap registration) [3,4] s ∧
        ¬ Unshared (hashKey List.length) (threeNames.filterMap registration) [2] ∧
        Unshared (hashKey List.length) (threeNames.filterMap registration) [3,4] := by
  have hrun : ∃ s, exec (step List.length .little) (init (some 0)) threeNames = some s := ⟨_,rfl⟩
  obtain ⟨s,hs⟩ := hrun
  exact ⟨s,hs,requests_routed _ _ _ _ s _ hs,requests_routed _ _ _ _ s _ hs,
    by simp [Unshared,threeNames,registration,hashKey],
    by simp [Unshared,threeNames,registration,hashKey]⟩

/-- A process with one handler. -/
def echoing : Process ℕ := {init (some 0) with callmap := reghandler (fun _ => 5) [1] (some id) ∅}

/-- Two names with one hash, of which only the first is registered. -/
theorem other_name_runs :
    ¬ ∀ (H : Bytes → ℕ) (es : List (Event ℕ)) (s : Process ℕ) (name : Bytes) (msg : Message)
      (handled : Handled), exec (step H .little) (init (some 0)) es = some s →
      msg.header.hash = UInt32.ofNat (H name) → Handles msg → msg.dataString ≠ none →
      handle s.callmap msg [] = .ok handled →
        ∀ x ∈ handled.ran, (name,some x.1) ∈ es.filterMap registration := by
  intro h
  have hlookup : echoing.callmap.lookup 5 = some (some id) := by
    rw [echoing,lookup_reghandler]
    rfl
  have hbody : shortRequest.dataString = some [7] := by decide
  have hhandle := handle_eq echoing.callmap hbody
  have hmem := h (fun _ => 5) [.reghandler [1] (some id)] _ [2] shortRequest _ rfl
    (by decide) (by decide) (by rw [hbody]; simp) hhandle (id,[7]) ?_
  · simp [registration] at hmem
  · have hhash : shortRequest.getHash = 5 := by decide
    rw [hhash,bound_eq_some.mpr hlookup]
    simp

end SindiaRpc.Routing
