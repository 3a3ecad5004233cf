import CpgFailover.Cluster
import CpgFailover.Inputs

/-!
# The address follows the state

The state machine takes the address when it sets `ST_MASTER` and gives it back when it sets
`ST_IDLE`, and no other action touches it. A takeover sets the state before it has the address, so
what counts is the state a transaction ends in: an exit through `error:` undoes both.

## Main definitions

* `Host.Follows`: the address is on the interface while the state serves it
* `TakeoverFails`: a takeover that does not come to its end

## Main results

* `follows_fsmDoTransaction`: a transaction keeps the address with the state
* `address_follows_state`: so does every sequence of inputs, and a takeover that fails leaves
  nothing
* `Proc.follows_handleEntry`: the callbacks of a process do the same
-/

namespace CpgFailover

open Agreed (Entry)
open Transition

/-! ## The calls that touch the interface -/

/-- A call that neither adds the address nor removes it. -/
def Effect.apart : Effect → Bool
  | .addVip _ _ _ | .removeVip _ _ => false
  | _ => true

theorem bound_of_apart {a : Bool} {c : Effect} (h : c.apart = true) : Effect.bound a c = a := by
  cases c <;> simp_all [Effect.apart, Effect.bound]

theorem foldl_bound_of_apart {calls : List Effect} (h : ∀ c ∈ calls, c.apart = true) (a : Bool) :
    calls.foldl Effect.bound a = a := by
  induction calls with
  | nil => rfl
  | cons c calls ih =>
    rw [List.foldl_cons, bound_of_apart (h c List.mem_cons_self)]
    exact ih fun c hc => h c (List.mem_cons_of_mem _ hc)

/-- Hanging up the calls of the profiles comes after the address has been removed. -/
theorem foldl_bound_goDown (v : Vip) (a : Bool) :
    (goDown v).effects.foldl Effect.bound a = false := by
  have hhup : ∀ c ∈ v.config.usedProfiles.map (fun p => Effect.hupall p.name), c.apart = true := by
    intro c hc
    obtain ⟨p, -, rfl⟩ := List.mem_map.mp hc
    rfl
  simp only [goDown, List.foldl_append]
  rw [foldl_bound_of_apart hhup]
  rfl

theorem apart_recoverCalls (c : Config) : ∀ call ∈ recoverCalls c, call.apart = true := by
  intro call h
  obtain ⟨p, -, rfl⟩ := List.mem_map.mp h
  rfl

theorem apart_cleanUpCalls (v : Vip) : ∀ call ∈ cleanUpCalls v, call.apart = true := by
  intro call h
  obtain ⟨p, -, rfl⟩ := List.mem_map.mp h
  rfl

/-! ## One transaction -/

/-- The address is on the interface if and only if the state is `ST_MASTER` or `ST_RBACK`. -/
def Host.Follows (h : Host) : Prop := h.address = true ↔ h.vip.state.serves = true

theorem Host.follows_iff {h : Host} : h.Follows ↔ h.address = h.vip.state.serves := by
  rw [Follows]
  exact Bool.eq_iff_iff.symm

/-- A takeover ends with the address as a master, or without it and idle. -/
theorem follows_becomeMaster (o : Outcome) (v : Vip) {calls : List Effect}
    (hcalls : ∀ c ∈ calls, c.apart = true) (a : Bool) :
    (becomeMaster o v calls).effects.foldl Effect.bound a =
      (becomeMaster o v calls).vip.state.serves := by
  simp only [becomeMaster]
  split_ifs with ha hg
  -- the address stays whatever is recovered and announced
  · simp only [List.foldl_append, List.foldl_cons, List.foldl_nil]
    rw [foldl_bound_of_apart hcalls]
    simp [Effect.bound, ha, virtualIpSendState, State.serves]
  -- either failure goes through `go_down`
  · simp only [failTransition, List.foldl_append]
    rw [foldl_bound_goDown]
    rfl
  · simp only [failTransition, List.foldl_append]
    rw [foldl_bound_goDown]
    rfl

/-- **A transaction keeps the address with the state.** -/
theorem follows_fsmDoTransaction (o : Outcome) {v : Vip} {a : Bool} (e : Event)
    (h : a = v.state.serves) :
    (fsmDoTransaction o v e).effects.foldl Effect.bound a =
      (fsmDoTransaction o v e).vip.state.serves := by
  have hto := fsmTo_fsmDoTransaction o v e
  generalize fsmDoTransaction o v e = r at hto ⊢
  cases hto with
  | down => exact foldl_bound_goDown v a
  | resign =>
    rw [failTransition, List.nil_append]
    exact foldl_bound_goDown v a
  | @claim calls _ hc =>
    apply follows_becomeMaster
    rcases hc with ⟨-, rfl⟩ | ⟨-, rfl⟩
    · simp
    · exact apart_recoverCalls v.config
  | cleanUp => rw [foldl_bound_of_apart (apart_cleanUpCalls v), h]
  -- the others neither touch the address nor leave or enter the states that serve it
  | stay => exact h
  | observe hs =>
    rw [hs] at h
    exact h
  | nodeup => exact h
  | backupup =>
    have hall : ∀ c ∈ (backupup o v).effects, c.apart = true := by
      simp [backupup, virtualIpSendState, virtualIpSendAllSql, Effect.apart]
    rw [foldl_bound_of_apart hall, h]
    rfl
  | request hs hl hn =>
    rw [hs] at h
    rw [rollback_cons hl hn]
    cases o.threadCreate <;> exact h
  | resume hs =>
    rw [hs] at h
    exact h
  | goUp hs =>
    rw [hs] at h
    rw [goUp]
    cases o.threadCreate <;> exact h

/-! ## Takeovers that fail -/

/-- A call of a takeover that fails. -/
def Effect.failed : Effect → Bool
  | .addVip _ _ ok | .sendGarp _ _ _ ok => !ok
  | _ => false

/-- The input makes a vip in `ST_START` or `ST_BACKUP` take over, and `act` or `react` returns a
failure or one of their calls fails. -/
def TakeoverFails (v : Vip) (i : VipInput) : Prop :=
  (v.state = .start ∨ v.state = .backup) ∧ (∃ o, (i.raise v).2 = some (o, .masterDown)) ∧
    ((v.input i).status = .failure ∨ ∃ c ∈ (v.input i).effects, c.failed = true)

/-- A call that fails is one of the two that take the address. -/
theorem becomeMaster_failed {o : Outcome} {v : Vip} {calls : List Effect}
    (hcalls : ∀ c ∈ calls, c.failed = false)
    (h : (becomeMaster o v calls).status = .failure ∨
      ∃ c ∈ (becomeMaster o v calls).effects, c.failed = true) :
    (becomeMaster o v calls).vip.state = .idle ∧
      ∀ nm, Effect.sendState nm ∉ (becomeMaster o v calls).effects := by
  simp only [becomeMaster] at h ⊢
  split_ifs at h ⊢ with ha hg
  · -- both calls succeed, and nothing else can fail
    rcases h with h | ⟨c, hc, hf⟩
    · cases h
    · simp only [virtualIpSendState, List.mem_append, List.mem_cons, List.not_mem_nil,
        or_false] at hc
      rcases hc with ((rfl | rfl) | hc) | rfl
      · simp [Effect.failed, ha] at hf
      · simp [Effect.failed, hg] at hf
      · simp [hcalls c hc] at hf
      · cases hf
  · exact ⟨rfl, fun nm => by simp [failTransition, sendState_notMem_goDown]⟩
  · exact ⟨rfl, fun nm => by simp [failTransition, sendState_notMem_goDown]⟩

/-- **A takeover that fails** ends idle and has announced nothing. -/
theorem TakeoverFails.idle {v : Vip} {i : VipInput} (h : TakeoverFails v i) :
    (v.input i).vip.state = .idle ∧ ∀ nm, Effect.sendState nm ∉ (v.input i).effects := by
  obtain ⟨hs, ⟨o, he⟩, hf⟩ := h
  rw [v.input_of_some he] at hf ⊢
  rw [← i.raise_state v] at hs
  generalize (i.raise v).1 = w at hs hf ⊢
  rcases hs with hs | hs
  · have heq : fsmDoTransaction o w .masterDown = act o w := by simp [fsmDoTransaction, table, hs]
    rw [heq] at hf ⊢
    unfold act at hf ⊢
    split_ifs at hf ⊢
    · exact becomeMaster_failed (by simp) hf
    -- another node heads the list
    · exact ⟨rfl, fun nm => by simp [failTransition, sendState_notMem_goDown]⟩
  · have heq : fsmDoTransaction o w .masterDown = react o w := by
      simp [fsmDoTransaction, table, hs]
    rw [heq] at hf ⊢
    unfold react at hf ⊢
    split_ifs at hf ⊢
    · refine becomeMaster_failed (fun c hc => ?_) hf
      obtain ⟨p, -, rfl⟩ := List.mem_map.mp hc
      rfl
    -- cleaning the tables does not fail
    · rcases hf with hf | ⟨c, hc, hf⟩
      · cases hf
      · obtain ⟨p, -, rfl⟩ := List.mem_map.mp hc
        cases hf

/-! ## Sequences of inputs -/

/-- One input keeps the address with the state. -/
theorem Host.Follows.step {h h' : Host} (hf : h.Follows) {i : VipInput} (hs : h.step i = some h') :
    h'.Follows := by
  obtain rfl := Option.some.inj hs
  rw [Host.follows_iff] at hf ⊢
  show (h.vip.input i).effects.foldl Effect.bound h.address = (h.vip.input i).vip.state.serves
  cases he : (i.raise h.vip).2 with
  | some oe =>
    rw [h.vip.input_of_some he]
    apply follows_fsmDoTransaction
    rw [hf, i.raise_state]
  | none =>
    obtain ⟨hv, hc⟩ := h.vip.input_of_none he
    rw [hv, hc, i.raise_state]
    exact hf

/-- **The address follows the state.** From an idle vip without the address, after any sequence of
inputs with any outcomes the address is on the interface exactly in `ST_MASTER` and `ST_RBACK`; and
a takeover that fails at any step ends idle, without the address and without an announcement. -/
theorem address_follows_state {v : Vip} {h : Host} (hv : v.state = .idle)
    (hr : Reaches Host.step ⟨v, false⟩ h) :
    (h.address = true ↔ h.vip.state = .master ∨ h.vip.state = .rback) ∧
      ∀ i h', h.step i = some h' → TakeoverFails h.vip i →
        h'.vip.state = .idle ∧ h'.address = false ∧
          ∀ nm, Effect.sendState nm ∉ (h.vip.input i).effects := by
  have hf : h.Follows := by
    refine hr.invariant (I := Host.Follows) ?_ fun _ _ _ _ hf _ hs => hf.step hs
    simp [Host.Follows, hv, State.serves]
  refine ⟨?_, fun i h' hs ht => ?_⟩
  · apply Iff.trans hf
    cases h.vip.state <;> simp [State.serves]
  · obtain ⟨hidle, hsend⟩ := ht.idle
    have hf' := Host.follows_iff.mp (hf.step hs)
    obtain rfl := Option.some.inj hs
    refine ⟨hidle, ?_, hsend⟩
    rw [hf']
    show (h.vip.input i).vip.state.serves = false
    rw [hidle]
    rfl

/-- A vip that is started, alone in its group. -/
def startedAlone : Host :=
  (run Host.step ⟨Vip.fresh (plainConfig 10 noProfiles), false⟩
    [.cmdStart allSucceed, .localGet 1, .memberList 1]).getD
      ⟨Vip.fresh (plainConfig 10 noProfiles), false⟩

/-- Its own announcement, with a gratuitous ARP that fails. -/
def unheard : VipInput := .newStateMessage { allSucceed with sendGarp := false } ⟨10, .start, []⟩ 1

theorem address_follows_state_unheard : ∃ h', startedAlone.step unheard = some h' ∧
    h'.vip.state = .idle ∧ h'.address = false ∧
      ∀ nm, Effect.sendState nm ∉ (startedAlone.vip.input unheard).effects :=
  ⟨_, rfl, (address_follows_state rfl (reaches_getD _)).2 unheard _ rfl
    ⟨Or.inl (by decide), ⟨_, rfl⟩, Or.inl (by decide)⟩⟩

/-! ## The callbacks of a process -/

namespace Proc

theorem perform_address (p : Proc) (c : Effect) :
    (p.perform c).address = Effect.bound p.address c := by
  cases c with
  | addVip _ _ ok => cases ok <;> rfl
  | sendGarp | removeVip | recover | cleanUpTable | hupall | requestAll | trackEvent | sendState
  | createVipThread | createRollbackThread | joinVipThread | joinRollbackThread => rfl

theorem foldl_perform_address (p : Proc) (calls : List Effect) :
    (calls.foldl perform p).address = calls.foldl Effect.bound p.address := by
  induction calls generalizing p with
  | nil => rfl
  | cons c calls ih => rw [List.foldl_cons, List.foldl_cons, ih, perform_address]

/-- **A callback of a process** keeps the address with the state. -/
theorem follows_handleEntry {p : Proc} (h : p.address = p.vip.state.serves) (o : Outcome)
    (e : Entry NodeId Msg) :
    (p.handleEntry o e).1.address = (p.handleEntry o e).1.vip.state.serves := by
  rw [handleEntry_vip]
  show ((handle (p.withHandle o) p.vip e).2.foldl perform _).address = _
  rw [foldl_perform_address]
  refine handle_rule (R := fun v w cs => ∀ a : Bool, a = v.state.serves →
    cs.foldl Effect.bound a = w.state.serves) ?_ ?_ ?_ ?_ ?_ ?_ p.vip e ?_ p.address h
  · exact fun v a ha => ha
  · intro u v w cs cs' hu hv a ha
    rw [List.foldl_append, hu a ha]
    exact hv _ rfl
  · exact fun v e _ a ha => follows_fsmDoTransaction _ e ha
  · exact fun v x a ha => ha
  · intro v nm y a ha
    rw [learn_state]
    exact ha
  · exact fun v k a ha => ha
  · exact fun _ v sql name a ha => ha

end Proc

end CpgFailover
