import CpgFailover.SingleMaster

/-!
# Release before takeover

A stop outside `vip_thread` resets the record first, which lets the thread leave the group, and
takes the address off the interface last. Nobody else takes the address in between as long as nobody
gets as far as the departure of a process that still has it. Nothing in the module makes the others
wait: without that proviso two live nodes can hold the address.

## Main definitions

* `Cluster.HasAddress`: a live node with the address on its interface
* `Bare`: a process that has not joined yet does not have the address
* `Releasing`: nobody handles the departure of a live node that still has the address
* `Cluster.Keeps`: a member that has claimed the address and is in the view for everybody so far

## Main results

* `release_before_takeover`: at most one live node has the address, and only it asks for it
* `address_held_twice`: without the proviso, two may
-/

namespace CpgFailover

open Agreed Transition

/-- A live node with the address on its interface. -/
def Cluster.HasAddress (g : Cluster) (n : NodeId) : Prop :=
  (g.site n).up = true ∧ (g.proc n).address = true

instance (g : Cluster) (n : NodeId) : Decidable (g.HasAddress n) := by
  unfold Cluster.HasAddress
  infer_instance

/-! ## The address of a process -/

/-- The phases of `vip_thread` before it has joined the group. -/
def VipPhase.early : VipPhase → Bool
  | .cpgInitialize | .contextSet | .localGet | .join => true
  | _ => false

namespace Proc

variable {p p' : Proc}

/-- Calls that give the process the address ask for it. -/
theorem address_foldl {calls : List Effect} (h : (calls.foldl perform p).address = true) :
    p.address = true ∨ claimed calls := by
  induction calls generalizing p with
  | nil => exact Or.inl h
  | cons c calls ih =>
    rw [List.foldl_cons] at h
    rcases ih h with ha | ⟨a, b, ok, hc⟩
    · unfold perform at ha
      split at ha
      case h_1 a b => exact Or.inr ⟨a, b, true, List.mem_cons_self⟩
      case h_2 => simp at ha
      all_goals exact Or.inl ha
    · exact Or.inr ⟨a, b, ok, List.mem_cons_of_mem c hc⟩

theorem address_absorb {v : Vip} {calls : List Effect} (h : (p.absorb v calls).address = true) :
    p.address = true ∨ claimed calls :=
  address_foldl (p := { p with vip := v }) h

theorem cmdStart_address (p : Proc) (created : Bool) :
    (p.cmdStart created).address = p.address := by
  by_cases hs : p.vip.state = .idle
  · cases created with
    | true => rw [cmdStart_created hs]
    | false => rw [cmdStart_failed hs]
  · rw [cmdStart_running hs]

theorem cmdStop_address (p : Proc) (caller : Option ThreadId) :
    (p.cmdStop caller).address = p.address := by
  unfold cmdStop
  split_ifs <;> rfl

/-- Outside the callbacks nothing adds the address. -/
theorem step_address {i : Input} (hi : ∀ t o e, i ≠ .deliver t o e) (hs : p.step i = some p')
    (ha : p'.address = true) : p.address = true := by
  cases stepTo_of_step hs with
  | start | rollbackStart => rwa [cmdStart_address] at ha
  | stop => rwa [cmdStop_address] at ha
  | @rollbackStop r => exact (cmdStop_address p (some r.id)).symm.trans ha
  | down hd =>
    cases downTo_of_downStep hd with
    | removed => simp at ha
    | _ => exact ha
  | deliver => exact absurd rfl (hi _ _ _)
  | @tick r => rwa [(tick_rest p r).2.2] at ha
  | cpgInitialize | contextSet | located | unlocated | join | dispatchFails | exitLoop | leave
  | finalize | finish | rollbackWait => exact ha

end Proc

/-- A start of an idle vip finds the address off the interface. -/
def BareStart (p : Proc) : Command → Prop
  | .input (.start _) | .input (.rollbackStart _ _) => p.vip.state = .idle → p.address = false
  | _ => True

instance (p : Proc) : (c : Command) → Decidable (BareStart p c)
  | .input (.start _) | .input (.rollbackStart _ _) => inferInstanceAs (Decidable (_ → _))
  | .input .stop | .input (.down _) | .input (.cpgInitialize _ _) | .input (.contextSet _ _)
  | .input (.localGet _ _ _) | .input (.join _ _) | .input (.deliver _ _ _)
  | .input (.dispatchFails _) | .input (.exitLoop _) | .input (.leave _) | .input (.finalize _)
  | .input (.finish _) | .input (.tick _) | .input (.rollbackStop _) | .input (.rollbackWait _)
  | .event _ _ => isTrue trivial

/-- A process that has not joined the group yet does not have the address. -/
structure Bare (d : Deployment) (n : NodeId) (k : Kind) (p : Proc) : Prop extends Stage d n k p where
  early : ∀ th ∈ p.vipThreads, th.phase.early = true → p.address = false
  entering : k = .joining ∨ k = .admitted → p.address = false

section Bare

variable {d : Deployment} {n : NodeId} {k : Kind} {p p' : Proc}

/-- A move of the thread from an early phase, or to a phase that is not early. -/
theorem early_moveVip {t : ThreadId} {here next : VipPhase} (ht : ⟨t, here⟩ ∈ p.vipThreads)
    (hnext : next.early = true → here.early = true)
    (h : ∀ th ∈ p.vipThreads, th.phase.early = true → p.address = false) :
    ∀ th ∈ (p.moveVip t next).vipThreads, th.phase.early = true → p.address = false := by
  intro th hth he
  obtain ⟨th', hth', rfl⟩ := List.mem_map.mp hth
  split_ifs at he with hid
  · exact h _ ht (hnext he)
  · exact h _ hth' he

/-- A start of an idle vip without the address leaves it without. -/
theorem early_cmdStart (hs : p.vip.state = .idle → p.address = false)
    (h : ∀ th ∈ p.vipThreads, th.phase.early = true → p.address = false) (created : Bool) :
    ∀ th ∈ (p.cmdStart created).vipThreads, th.phase.early = true →
      (p.cmdStart created).address = false := by
  intro th hth he
  rw [Proc.cmdStart_address]
  by_cases hidle : p.vip.state = .idle
  · exact hs hidle
  · rw [Proc.cmdStart_running hidle] at hth
    exact h th hth he

/-- A stop ends no thread by itself. -/
theorem early_cmdStop (h : ∀ th ∈ p.vipThreads, th.phase.early = true → p.address = false)
    (caller : Option ThreadId) : ∀ th ∈ (p.cmdStop caller).vipThreads, th.phase.early = true →
      (p.cmdStop caller).address = false := by
  unfold Proc.cmdStop
  split_ifs <;> exact h

/-- Each local step keeps the address off an early thread. -/
theorem early_step {i : Input} (hc : BareStart p (.input i)) (hp : Permitted d n i)
    (hs : p.step i = some p') (h : ∀ th ∈ p.vipThreads, th.phase.early = true → p.address = false) :
    ∀ th ∈ p'.vipThreads, th.phase.early = true → p'.address = false := by
  cases Proc.stepTo_of_step hs with
  | start created => exact early_cmdStart hc h created
  | @rollbackStart r created => exact early_cmdStart (p := p.endRollback r.id) hc h created
  | stop => exact early_cmdStop h none
  | @rollbackStop r => exact early_cmdStop h (some r.id)
  | down hd =>
    intro th hth he
    have ha := h th ((Proc.downStep_vip hd).1 ▸ hth) he
    by_contra ht
    have hadd := Proc.step_address (i := .down _) (by simp) hs (by simpa using ht)
    simp [ha] at hadd
  | cpgInitialize ht | contextSet ht | join ht =>
    refine early_moveVip ht ?_ h
    split_ifs <;> simp [VipPhase.early]
  | located ht => exact early_moveVip ht (fun _ => rfl) h
  | unlocated ht => exact early_moveVip ht (fun _ => rfl) h
  | exitLoop ht | leave ht | finalize ht => exact early_moveVip ht (by simp [VipPhase.early]) h
  | deliver => exact absurd hp id
  | dispatchFails => exact absurd hp id
  | finish => exact fun th hth => h th (List.mem_of_mem_filter hth)
  | @tick r =>
    rw [Proc.tick_vipThreads, (Proc.tick_rest p r).2.2]
    exact h
  | rollbackWait => exact h

theorem Bare.act (h : Bare d n k p) {c : Command} {sig : Signal Msg} (hc : CleanStart n p c)
    (hb : BareStart p c) (ha : nodeAct d n p c = some (p', sig)) : Bare d n (sig.kind k) p' := by
  refine ⟨h.toStage.act hc ha, ?_, ?_⟩
  · cases c with
    | input i =>
      obtain ⟨hp, hs, -⟩ := nodeAct_input ha
      exact early_step hb hp hs h.early
    | event name sql =>
      obtain ⟨rfl, -⟩ := nodeAct_event (d := d) (n := n) ha
      exact h.early
  · intro hk
    by_contra haddr
    cases c with
    | event name sql =>
      obtain ⟨rfl, m, rfl⟩ := nodeAct_event (d := d) (n := n) ha
      exact haddr (h.entering hk)
    | input i =>
      obtain ⟨hp, hs, rfl⟩ := nodeAct_input ha
      have hdel : ∀ t o e, i ≠ .deliver t o e := by
        rintro t o e rfl
        exact hp
      have hold := Proc.step_address hdel hs (by simpa using haddr)
      have hnot : ¬ (k = .joining ∨ k = .admitted) := fun hk' => by simp [h.entering hk'] at hold
      -- only `cpg_join` connects, and its thread is early
      cases i with
      | join t results =>
        cases Proc.stepTo_of_step hs with
        | join ht => simp [h.early _ ht rfl] at hold
      | leave => simp [inputSignal, Signal.kind] at hk
      | _ => exact hnot hk

theorem bare_boot (d : Deployment) (n : NodeId) : Bare d n .out (Proc.fresh (d.config n)) :=
  ⟨stage_boot d n, fun _ h => absurd h List.not_mem_nil, fun h => by simp at h⟩

theorem Bare.deliver (h : Bare d n k p) {e : Entry NodeId Msg} {o : Outcome} {calls : List Effect}
    (hd : nodeDeliver n p e o = some (p', calls)) : Bare d n .active p' := by
  refine ⟨h.toStage.deliver hd, fun th hth he => ?_, fun hk => by simp at hk⟩
  obtain ⟨⟨th', hth', hph⟩, -, -, -, -, -, ht, -⟩ := nodeDeliver_eq_some hd
  rw [ht, h.single th' hth', List.mem_singleton] at hth
  subst hth
  simp [hph, VipPhase.early] at he

theorem bare_rule {ok : Cluster → ClusterStep → Prop}
    (hok : ∀ {g n c}, ok g (.act n c) → CleanStart n (g.proc n) c ∧ BareStart (g.proc n) c) :
    Group.SiteRule (cluster d) ok (Bare d) where
  boot := bare_boot d
  act h hi ha := hi.act (hok h).1 (hok h).2 ha
  deliver _ hi _ hd := hi.deliver hd
  enter h := ⟨h.toStage.enter, h.early, fun _ => h.entering (Or.inl rfl)⟩

end Bare

/-! ## Who has the address -/

/-- Starts find the address off the interface, and nobody handles the departure of a live node that
still has the address, nor an entry after it. -/
def Waiting (d : Deployment) (g : Cluster) : ClusterStep → Prop
  | .act n c => BareStart (g.proc n) c
  | .deliver n _ =>
    match (g.site n).conn with
    | .member _ next => ∀ m ∈ d.nodes, g.HasAddress m → next < lastIn g.log m
    | _ => True
  | _ => True

instance (d : Deployment) (g : Cluster) : (l : ClusterStep) → Decidable (Waiting d g l)
  | .act n c => inferInstanceAs (Decidable (BareStart (g.proc n) c))
  | .deliver n o => by
    unfold Waiting
    dsimp only
    match (g.site n).conn with
    | .out | .joining => exact isTrue trivial
    | .member _ next => infer_instance
  | .order _ | .confchg _ _ | .crash _ | .boot _ => isTrue trivial

/-- The conditions for a single master, and nobody handles the departure of a live node that still
has the address. -/
def Releasing (d : Deployment) (g : Cluster) (l : ClusterStep) : Prop := Heedful g l ∧ Waiting d g l

theorem Releasing.regular {d : Deployment} {g : Cluster} {l : ClusterStep} (h : Releasing d g l) :
    Regular g l := h.1.1

theorem Releasing.clean {d : Deployment} {g : Cluster} {l : ClusterStep} (h : Releasing d g l) :
    CleanStarts g l := h.regular.1

instance (d : Deployment) (g : Cluster) (l : ClusterStep) : Decidable (Releasing d g l) := by
  unfold Releasing
  infer_instance

namespace Cluster

variable {d : Deployment} {g : Cluster}

/-- `n` has asked for the address, and has been in the view for whatever anybody has handled. -/
def Keeps (g : Cluster) (n : NodeId) : Prop :=
  ∃ t ∈ g.turns, t.node = n ∧ t.claims ∧ ∃ k, Stays g.log n t.pos k ∧ ∀ r ∈ g.transcript, r.pos < k

/-- `n` has asked for the address in its last membership, whose end nobody has handled. -/
def HeldSince (g : Cluster) (n : NodeId) : Prop :=
  ∃ t ∈ g.turns, t.node = n ∧ t.claims ∧ (∀ j, t.pos < j → ¬ JoinsAt g.log j n) ∧
    ∀ r ∈ g.transcript, r.pos < lastIn g.log n

theorem HeldSince.keeps (h : History d.prio g.log g.turns) {n : NodeId} (hn : g.HeldSince n) :
    g.Keeps n := by
  obtain ⟨t, ht, rfl, hc, hj, hr⟩ := hn
  exact ⟨t, ht, rfl, hc, _, h.wellFormed.stays_lastIn (h.lt_length ht) (h.mem_view ht) hj, hr⟩

/-- A longer log in which `n` does not join again. -/
theorem HeldSince.append {n : NodeId} (h : g.HeldSince n) {e : Entry NodeId Msg}
    {site : NodeId → Site Msg Proc}
    (he : ∀ members left joined, e = .confchg members left joined → n ∉ joined) :
    HeldSince { g with log := g.log ++ [e], site := site } n := by
  obtain ⟨t, ht, hn, hc, hj, hr⟩ := h
  refine ⟨t, ht, hn, hc, fun j hlt hjoin => ?_, fun r hr' => ?_⟩
  · obtain ⟨ms, l, js, hk, hm⟩ := hjoin
    rcases getElem?_snoc_cases hk with hk | ⟨-, hk⟩
    · exact hj j hlt ⟨ms, l, js, hk, hm⟩
    · exact he ms l js hk.symm hm
  · exact (hr r hr').trans_le (lastIn_append g.log e n)

/-- A member is in the view up to the end of the log. -/
theorem lastIn_of_member (hg : Group.Sound (cluster d) CleanStart g) {n : NodeId}
    {since next : ℕ} (hc : (g.site n).conn = .member since next) :
    lastIn g.log n = g.log.length := by
  obtain ⟨-, -, -, hlt, -, hst⟩ := hg.member hc
  exact le_antisymm (lastIn_le _ _) (le_lastIn le_rfl (hst.mem hlt))

/-- A local step does not give a node the address. -/
theorem hasAddress_act {n m : NodeId} {c : Command} {s : Proc} {sig : Signal Msg}
    {p : Site Msg Proc} (hup : (g.site n).up = true)
    (ha : nodeAct d n (g.proc n) c = some (s, sig)) (hp : (g.site n).signal s sig = some p)
    (h : Cluster.HasAddress (g.setSite n p) m) : g.HasAddress m := by
  by_cases hm : m = n
  · subst hm
    have hst : p.st = s := by
      unfold Site.signal at hp
      repeat' split at hp
      all_goals first | cases hp; done | (obtain rfl := Option.some.inj hp; rfl)
    obtain ⟨-, haddr⟩ := h
    simp only [Cluster.proc, Group.setSite_self, hst] at haddr
    refine ⟨hup, ?_⟩
    cases c with
    | input i =>
      obtain ⟨hp, hs, -⟩ := nodeAct_input ha
      refine Proc.step_address ?_ hs haddr
      rintro t o e rfl
      exact hp
    | event name sql =>
      obtain ⟨rfl, -⟩ := nodeAct_event (d := d) (n := m) ha
      exact haddr
  · simpa only [HasAddress, Cluster.proc, Group.setSite_of_ne hm] using h

/-- Whoever has the address after handling an entry asked for it, or had it before. -/
theorem address_nodeDeliver {n : NodeId} {p p' : Proc} {e : Entry NodeId Msg} {o : Outcome}
    {calls : List Effect} (hd : nodeDeliver n p e o = some (p', calls)) (h : p'.address = true) :
    p.address = true ∨ claimed calls := by
  obtain ⟨-, hd⟩ := Option.ite_none_right_eq_some.mp hd
  have hp : p' = _ := (congrArg Prod.fst (Option.some.inj hd)).symm
  have hcalls : calls = _ := (congrArg Prod.snd (Option.some.inj hd)).symm
  rw [hp] at h
  rw [hcalls]
  exact Proc.address_absorb h

/-- A node that handles an entry and has the address afterwards has asked for it in its present
membership. -/
theorem heldSince_self (hg : Group.Sound (cluster d) CleanStart g) {n : NodeId} {since next : ℕ}
    {e : Entry NodeId Msg} {o : Outcome} {s : Proc} {out : List Effect}
    (hold : g.HasAddress n → g.HeldSince n) (hc : (g.site n).conn = .member since next)
    (he : g.log[next]? = some e) (hd : nodeDeliver n (g.proc n) e o = some (s, out))
    (h : s.address = true) : HeldSince (g.handled (cluster d) n since next s out) n := by
  obtain ⟨hup, hsn, hnl, hsl, hj, hst⟩ := hg.member hc
  have hend : lastIn g.log n = g.log.length := lastIn_of_member hg hc
  have hbound : ∀ r ∈ (g.handled (cluster d) n since next s out).transcript,
      r.pos < lastIn g.log n := by
    intro r hr
    rw [hend]
    rcases List.mem_append.mp hr with hr | hr
    · exact hg.bounded r hr
    · obtain rfl := List.mem_singleton.mp hr
      exact (List.getElem?_eq_some_iff.mp he).1
  rcases address_nodeDeliver hd h with haddr | hclaim
  · obtain ⟨t, ht, hn, hcl, hjoin, -⟩ := hold ⟨hup, haddr⟩
    refine ⟨t, ?_, hn, hcl, hjoin, hbound⟩
    obtain ⟨r, hr, rfl⟩ := List.mem_map.mp ht
    exact turnOf_mem (List.mem_append_left _ hr)
  · refine ⟨_, turnOf_mem (List.mem_append_right _ (List.mem_singleton_self _)), rfl, hclaim, ?_,
      hbound⟩
    -- a member does not join again
    intro j hlt hjoin
    have hjl : j < g.log.length := by
      obtain ⟨ms, l, js, hk, -⟩ := hjoin
      exact (List.getElem?_eq_some_iff.mp hk).1
    have hlt' : next < j := hlt
    exact hg.log.not_joinsAt (hst j (by omega) (Nat.le_of_lt hjl)) hjoin

/-- A node that has the address keeps its claim while another node handles an entry before its
departure. -/
theorem HeldSince.handled {n m : NodeId} {since next : ℕ} {s : Proc} {out : List Effect}
    (h : g.HeldSince m) (hnext : next < lastIn g.log m) :
    HeldSince (g.handled (cluster d) n since next s out) m := by
  obtain ⟨t, ht, hn, hcl, hjoin, hr⟩ := h
  obtain ⟨r, hrt, rfl⟩ := List.mem_map.mp ht
  refine ⟨_, turnOf_mem (List.mem_append_left _ hrt), hn, hcl, hjoin, fun r' hr' => ?_⟩
  rcases List.mem_append.mp hr' with hr' | hr'
  · exact hr r' hr'
  · obtain rfl := List.mem_singleton.mp hr'
    exact hnext

/-- **Whoever has the address has asked for it in its last membership, whose end nobody has
handled.** -/
theorem heldSince_of_hasAddress (h : ReachesWhen d.step (Releasing d) d.start g) {n : NodeId}
    (hn : g.HasAddress n) : g.HeldSince n := by
  refine h.invariant (I := fun g => ∀ n, g.HasAddress n → g.HeldSince n) ?_ ?_ n hn
  · rintro n ⟨-, ha⟩
    simp [Cluster.proc, Deployment.start, Group.init, cluster, Proc.fresh] at ha
  intro g a g' hr ih hok hs m hm
  have hg := sound Releasing.clean hr
  have hbare : Group.SiteSound (Bare d) g :=
    Group.site_invariant (bare_rule fun hk => ⟨hk.clean, hk.2⟩) hr
  cases Group.stepTo_of_step hs with
  | act hup ha hp => exact ih m (hasAddress_act hup ha hp hm)
  | @deliver n o since next e s out hc he hd =>
    by_cases hmn : m = n
    · subst hmn
      apply heldSince_self hg (ih m) hc he hd
      simpa [Cluster.proc] using hm.2
    · have hold : g.HasAddress m := by
        simpa only [HasAddress, Cluster.proc, Group.handled_of_ne hmn, Group.handled_log] using hm
      have hheld := ih m hold
      have hmem : m ∈ d.nodes := by
        obtain ⟨t, ht, rfl, -⟩ := hheld
        have hist := chronicle Releasing.clean hr
        obtain ⟨j, -, hj, -⟩ :=
          hist.wellFormed.exists_joinsAt (hist.lt_length ht) (hist.mem_view ht)
        exact joined_mem Releasing.clean hr hj
      have hwait := hok.2
      simp only [Waiting, hc] at hwait
      exact hheld.handled (hwait m hmem hold)
  | @order n msg rest hv hout =>
    refine HeldSince.append (ih m ?_) (fun _ _ _ he => by cases he)
    by_cases hmn : m = n
    · subst hmn
      simpa [HasAddress, Cluster.proc] using hm
    · simpa only [HasAddress, Cluster.proc, Group.setSite_of_ne hmn] using hm
  | @confchg left joined hc =>
    have hold : g.HasAddress m := by
      obtain ⟨hup, ha⟩ := hm
      simp only [Cluster.proc, Group.change, Site.enter] at hup ha
      constructor
      · split_ifs at hup <;> exact hup
      · unfold Cluster.proc
        split_ifs at ha <;> exact ha
    apply HeldSince.append (ih m hold)
    rintro ms l js ⟨⟩ hmj
    -- a process that is joining does not have the address
    have hconn := (hc.2.2.2.2 m hmj).2
    have hstage := hbare.site m hold.1
    rw [hconn] at hstage
    have := hstage.entering (Or.inl rfl)
    simp [Cluster.HasAddress, Cluster.proc, this] at hold
  | crash n =>
    by_cases hmn : m = n
    · subst hmn
      simp [HasAddress] at hm
    · apply ih m
      simpa only [HasAddress, Cluster.proc, Group.setSite_of_ne hmn] using hm
  | @boot n hup =>
    by_cases hmn : m = n
    · subst hmn
      simp [HasAddress, Cluster.proc, cluster, Proc.fresh] at hm
    · apply ih m
      simpa only [HasAddress, Cluster.proc, Group.setSite_of_ne hmn] using hm

/-- **Only one node keeps the address.** -/
theorem Keeps.eq (h : History d.prio g.log g.turns) (hd : CpgFailover.Distinct d.prio g.log)
    (hstart : StartsComplete g.log g.turns) {n m : NodeId} (hn : g.Keeps n) (hm : g.Keeps m) :
    n = m := by
  obtain ⟨t, ht, rfl, hc, i, hst, hr⟩ := hn
  obtain ⟨t', ht', rfl, hc', j, hst', hr'⟩ := hm
  have hlt : t'.pos < i := by
    obtain ⟨r, hrt, rfl⟩ := List.mem_map.mp ht'
    exact hr r hrt
  have hlt' : t.pos < j := by
    obtain ⟨r, hrt, rfl⟩ := List.mem_map.mp ht
    exact hr' r hrt
  -- both lead right after the later of the two claims
  rcases le_total t.pos t'.pos with hle | hle
  · refine h.lead_unique hd hstart (k := t'.pos + 1) ?_ ?_
    · exact ⟨t, ht, rfl, by omega, hc, hst.mono le_rfl hlt⟩
    · exact lead_succ.mpr ⟨h.mem_view ht', Or.inr ⟨t', ht', rfl, rfl, hc'⟩⟩
  · refine h.lead_unique hd hstart (k := t.pos + 1) ?_ ?_
    · exact lead_succ.mpr ⟨h.mem_view ht, Or.inr ⟨t, ht, rfl, rfl, hc⟩⟩
    · exact ⟨t', ht', rfl, by omega, hc', hst'.mono le_rfl hlt'⟩

/-- In the step from `g` to `g'`, `n` handles an entry and asks for the address. -/
def Asks (g g' : Cluster) (n : NodeId) : Prop :=
  ∃ r, g'.transcript = g.transcript ++ [r] ∧ r.node = n ∧ claimed r.out

/-- Only the handling of an entry asks for the address. -/
theorem Asks.exists_handled {l : ClusterStep} {g' : Cluster} (hs : d.step g l = some g')
    {n : NodeId} (ha : g.Asks g' n) : ∃ since next s out,
      (g.site n).conn = .member since next ∧ claimed out ∧
        g' = g.handled (cluster d) n since next s out := by
  obtain ⟨r, htr, rfl, hcl⟩ := ha
  have hquiet : g'.transcript ≠ g.transcript := by
    intro he
    have := congrArg List.length (he.symm.trans htr)
    simp at this
  cases Group.stepTo_of_step hs with
  | act | order | confchg | crash | boot => exact absurd rfl hquiet
  | @deliver n o since next e s out hc he hd =>
    obtain rfl : (⟨n, next, (g.site n).st, s, out⟩ : Record NodeId Proc (List Effect)) = r := by
      simpa using List.append_cancel_left htr
    exact ⟨since, next, s, out, hc, hcl, rfl⟩

/-- Whoever asks for the address is in the view. -/
theorem Asks.keeps {ok : Cluster → ClusterStep → Prop} (hok : ∀ {g l}, ok g l → CleanStarts g l)
    (h : ReachesWhen d.step ok d.start g) {l : ClusterStep} {g' : Cluster} (hl : ok g l)
    (hs : d.step g l = some g') {n : NodeId} (ha : g.Asks g' n) : g'.Keeps n := by
  have hg := sound hok (h.tail hl hs)
  obtain ⟨since, next, s, out, hc, hcl, rfl⟩ := ha.exists_handled hs
  have hc' : ((g.handled (cluster d) n since next s out).site n).conn =
      .member since (next + 1) := by
    simp
  obtain ⟨-, -, -, -, -, hst⟩ := hg.member hc'
  have hsn := ((sound hok h).member hc).2.1
  refine ⟨_, turnOf_mem (List.mem_append_right _ (List.mem_singleton_self _)), rfl, hcl, _, ?_,
    hg.bounded⟩
  exact hst.mono hsn le_rfl

/-- Asking for the address, a node leaves the addresses of the others alone. -/
theorem Asks.hasAddress {l : ClusterStep} {g' : Cluster} (hs : d.step g l = some g') {n m : NodeId}
    (ha : g.Asks g' n) (hm : g.HasAddress m) (hne : m ≠ n) : g'.HasAddress m := by
  obtain ⟨since, next, s, out, -, -, rfl⟩ := ha.exists_handled hs
  simpa only [HasAddress, Cluster.proc, Group.handled_of_ne hne, Group.handled_log] using hm

theorem keeps_of_hasAddress (h : ReachesWhen d.step (Releasing d) d.start g) {n : NodeId}
    (hn : g.HasAddress n) : g.Keeps n :=
  (heldSince_of_hasAddress h hn).keeps (history Releasing.regular h)

theorem keeps_unique (hd : d.Distinct) (h : ReachesWhen d.step (Releasing d) d.start g)
    {n m : NodeId} (hn : g.Keeps n) (hm : g.Keeps m) : n = m :=
  hn.eq (history Releasing.regular h) (distinct Releasing.clean h hd)
    (startsComplete (fun hk => hk.1.2) h) hm

end Cluster

/-- **Release before takeover.** In every run in which the conditions for a single master hold, no
vip is started with the address still on the interface, and nobody handles the departure of a live
node that still has the address, at most one live node has it, and whoever asks for it finds it on
no other node. -/
theorem release_before_takeover {d : Deployment} (hd : d.Distinct) {g : Cluster}
    (h : ReachesWhen d.step (Releasing d) d.start g) :
    (∀ n m, g.HasAddress n → g.HasAddress m → n = m) ∧
      ∀ l g', Releasing d g l → d.step g l = some g' →
        ∀ n m, g.Asks g' n → g.HasAddress m → m = n := by
  constructor
  · intro n m hn hm
    exact Cluster.keeps_unique hd h (Cluster.keeps_of_hasAddress h hn)
      (Cluster.keeps_of_hasAddress h hm)
  · intro l g' hl hs n m ha hm
    by_contra hne
    have h' := h.tail hl hs
    apply hne
    exact Cluster.keeps_unique hd h' (Cluster.keeps_of_hasAddress h' (ha.hasAddress hs hm hne))
      (ha.keeps Releasing.clean h hl hs)

/-- The master is stopped by the operator, and everything `go_down` does is done: its thread ends,
and the address is removed. -/
def stopped (n : NodeId) : List ClusterStep :=
  [.act n (.input .stop), .act n (.input (.down 0)), .act n (.input (.down 0)),
    .act n (.input (.exitLoop 0)), .act n (.input (.leave 0)), .act n (.input (.finalize 0)),
    .act n (.input (.finish 0)), .act n (.input (.down 0)), .act n (.input (.down 0))]

/-- The cluster after the master has been stopped. -/
def released : Cluster :=
  (runWhen staggered.step (Releasing staggered) staggered.start (firstUp 1 ++ secondUp 1 2 ++
    stopped 1 ++ [.confchg [1] []])).getD staggered.start

/-- The cluster after the backup has taken over. -/
def handedOver : Cluster :=
  (staggered.step released (.deliver 2 allSucceed)).getD released

set_option maxRecDepth 10000 in
theorem release_before_takeover_handedOver :
    (handedOver.HasAddress 2 ∧ ¬ handedOver.HasAddress 1) ∧
      released.Asks handedOver 2 ∧ ∀ m, released.HasAddress m → m = 2 := by
  have hd : staggered.Distinct := by decide +kernel
  have hrel : ReachesWhen staggered.step (Releasing staggered) staggered.start released :=
    reachesWhen_getD _
  have hok : Releasing staggered released (.deliver 2 allSucceed) := by decide +kernel
  obtain ⟨g', hg'⟩ := Option.isSome_iff_exists.mp
    (show (staggered.step released (.deliver 2 allSucceed)).isSome by decide +kernel)
  have hs : staggered.step released (.deliver 2 allSucceed) = some handedOver := by
    rw [handedOver, hg', Option.getD_some]
  have h₂ : handedOver.HasAddress 2 := by decide +kernel
  have hasks : released.Asks handedOver 2 := by
    -- the record of the handling is the last one
    have hlast : ∀ r ∈ handedOver.transcript.getLast?, claimed r.out := by decide +kernel
    have hone {g : Cluster} (h : staggered.step released (.deliver 2 allSucceed) = some g) :
        ∃ r, g.transcript = released.transcript ++ [r] ∧ r.node = 2 := by
      cases Group.stepTo_of_step h with
      | deliver => exact ⟨_, rfl, rfl⟩
    obtain ⟨r, hr, hn⟩ := hone hs
    exact ⟨r, hr, hn, hlast r (by rw [hr, List.getLast?_concat]; rfl)⟩
  refine ⟨⟨h₂, fun h₁ => ?_⟩, hasks, fun m hm => ?_⟩
  · have hunique := (release_before_takeover hd (hrel.tail hok hs)).1
    exact absurd (hunique 1 2 h₁ h₂) (by decide)
  · exact (release_before_takeover hd hrel).2 _ _ hok hs 2 m hasks hm

/-- The thread of the stopped master leaves the group while its `go_down` still waits for it; the
backup handles the departure before the address is removed. -/
def overlappingStop : List ClusterStep :=
  firstUp 1 ++ secondUp 1 2 ++
    [.act 1 (.input .stop), .act 1 (.input (.down 0)), .act 1 (.input (.down 0)),
      .act 1 (.input (.exitLoop 0)), .act 1 (.input (.leave 0)), .confchg [1] []] ++
    deliveries 2 1

/-- The cluster after the overlapping stop. -/
def stillHeld : Cluster :=
  (runWhen staggered.step Heedful staggered.start overlappingStop).getD staggered.start

set_option maxRecDepth 10000 in
/-- **Two live nodes can hold the address**, the conditions for a single master notwithstanding. -/
theorem address_held_twice : ¬ ∀ (d : Deployment) (g : Cluster), d.Distinct →
    ReachesWhen d.step Heedful d.start g → ∀ n m, g.HasAddress n → g.HasAddress m → n = m := by
  intro h
  have h₁ : stillHeld.HasAddress 1 := by decide +kernel
  have h₂ : stillHeld.HasAddress 2 := by decide +kernel
  have heq := h staggered stillHeld (by decide +kernel) (reachesWhen_getD _) 1 2 h₁ h₂
  exact absurd heq (by decide)

end CpgFailover
