import TailBench.Harness.RateLog

set_option autoImplicit false

/-! # The rates of a session

What the log of a session says about its periods: the rate and the interval in force after `k`
changes (`rate_schedule`), how far an interval is from the exact one (`interval_drift`), and how
many requests one sender generates in a period (`period_requests_iff`). The call of `startReq` that
changes the rate sets the counter to 0 and generates the first request at the new rate, which
nothing has counted; in the first period there is no such call.
-/

namespace TailBench

open Lib

namespace Config

/-- `TBENCH_INTERVALQPS` is positive, and so are the rates of a list. -/
structure GoodRates (cfg : Config) : Prop where
  interval : 1 ≤ cfg.intervalQPS
  rates : cfg.qpsVar = 2 → ∀ q ∈ [cfg.iniQPS, cfg.qps1, cfg.qps2, cfg.qps3, cfg.qps4], 0 < q

theorem GoodRates.listQPS {cfg : Config} (h : cfg.GoodRates) (htwo : cfg.qpsVar = 2) :
    ∀ q ∈ cfg.listQPS, 0 < q := by
  intro q hq
  obtain ⟨r, hr, rfl⟩ := List.mem_map.mp hq
  exact div_pos (h.rates htwo r hr) (by norm_num)

theorem GoodRates.interval_pos {cfg : Config} (h : cfg.GoodRates) (k : Nat) : 1 ≤ cfg.interval k :=
  cfg.interval_pos h.interval h.listQPS k

end Config

section Schedule

variable {cfg : Config} {strict : Bool} {nS nR : Nat} {s s' : Session nS nR}
  {a : SessionAction nS nR} {l : List RateEvent}

/-- The counter does not pass the interval. -/
theorem loggedSession_counter_le (hgood : cfg.GoodRates)
    (h : (loggedSession cfg strict nS nR).Reachable (s, l)) (hroi : s.obj.status = .ROI) :
    s.obj.qpsCounter ≤ s.obj.qpsInterval := by
  suffices hall : ∀ x : Session nS nR × List RateEvent,
      (loggedSession cfg strict nS nR).Reachable x →
      x.1.obj.status = .ROI → x.1.obj.qpsCounter ≤ x.1.obj.qpsInterval from hall _ h hroi
  intro x hx
  refine Machine.Reachable.invariant (P := fun x =>
    x.1.obj.status = .ROI → x.1.obj.qpsCounter ≤ x.1.obj.qpsInterval) ?_ ?_ hx
  · rintro ⟨s, l⟩ ⟨⟨t, rfl⟩, _⟩ hst
    cases hst
  · intro x a y hr ih hn hroi
    have hnext := loggedSession_scheduled (hr.step a hn)
    have hint := hgood.interval_pos (tally y.2).changes
    rw [← hnext.onSchedule.qpsInterval] at hint
    have hs := loggedSession_scheduled hr
    have hn' := (Machine.logged_next.mp hn).1
    have hcheck : x.1.rateEvent a y.1 = some .counted ∨
        (∃ i r ns, x.1.rateEvent a y.1 = some (.changed i r ns)) → x.1.obj.status = .ROI :=
      hs.roi_of_check
    have hpaces := session_paces hn'
    generalize x.1.rateEvent a y.1 = e at hpaces hcheck
    cases hpaces with
    | quiet hsame hstatus hcounter =>
        rw [hcounter, hsame.qpsInterval]
        exact ih (hstatus ▸ hroi)
    | begin ns hd hbegin =>
        rw [hbegin] at hroi
        simp [Client.startReqInit, hd] at hroi
    | roi hsame _ _ hcounter _ =>
        rw [hcounter]
        omega
    | counted ns hne hcount =>
        have hle := ih (hcheck (.inl rfl))
        rw [Client.startReqRate_of_ne ns hne] at hcount
        rw [hcount]
        dsimp only
        omega
    | changed ns heq hchange _ =>
        obtain ⟨_, hzero, _⟩ := Client.startReqRate_of_eq ns heq hs.onSchedule
        rw [← hchange] at hzero
        rw [hzero]
        omega
    | generated _ _ hsame hstatus hcounter _ _ =>
        have hinterval : y.1.obj.qpsInterval = x.1.obj.qpsInterval := hsame.qpsInterval
        rw [hcounter, hinterval]
        exact ih (hstatus ▸ hroi)

/-- A change ends the period in force. -/
theorem changed_event {i : Int} {r : ℚ} {ns : UInt64}
    (hs : s.Scheduled cfg l) (h : Session.next cfg strict a s = some s')
    (he : s.rateEvent a s' = some (.changed i r ns)) :
    i = s.obj.qpsInterval ∧ s.obj.qpsCounter = s.obj.qpsInterval ∧
      s.obj.qpsCounter = (tally l).increments ∧ r = s'.obj.qpsIni ∧
      s'.obj.dist = some (ExpDist.new r cfg.seed ns) ∧
      s'.obj.OnSchedule cfg ((tally l).changes + 1) := by
  have hroi := hs.roi_of_check (.inr ⟨i, r, ns, he⟩)
  have hpaces := session_paces h
  rw [he] at hpaces
  cases hpaces with
  | changed t heq hchange hd =>
      obtain ⟨hon, _, hdist⟩ := Client.startReqRate_of_eq t heq hs.onSchedule
      rw [← hchange] at hon hdist
      rw [hd] at hdist
      obtain rfl := Option.some.inj hdist
      exact ⟨rfl, heq, hs.counter hroi, rfl, hd, hon⟩

/-- What the schedule says about a session and its log. -/
structure Session.KeepsSchedule (cfg : Config) (s : Session nS nR) (l : List RateEvent) :
    Prop where
  list : cfg.qpsVar = 2 → s.obj.qpsIni = cfg.listQPS.getD ((tally l).changes % 5) 0
  step : cfg.qpsVar = 1 →
    s.obj.qpsIni = (cfg.iniQPS + (tally l).changes * cfg.stepQPS) / 1000000000
  /-- The requests are generated at that rate. -/
  dist : ∀ d, s.obj.dist = some d → d.lambda = s.obj.qpsIni
  interval : 1 ≤ s.obj.qpsInterval
  counter : s.obj.status = .ROI → 0 ≤ s.obj.qpsCounter ∧ s.obj.qpsCounter ≤ s.obj.qpsInterval
  /-- A period is left after as many increments as its interval. -/
  periods : Machine.EachAfter (fun l₁ e => ∀ i r ns, e = .changed i r ns →
    ((tally l₁).increments : Int) = i ∧ i = cfg.interval (tally l₁).changes) l
  inForce : s.obj.qpsInterval = cfg.interval (tally l).changes

/-- **The schedule.** In every reachable state of every session, for any number of senders. -/
theorem rate_schedule (hvar : cfg.qpsVar = 1 ∨ cfg.qpsVar = 2) (hgood : cfg.GoodRates)
    (h : (loggedSession cfg strict nS nR).Reachable (s, l)) : s.KeepsSchedule cfg l := by
  have hs := loggedSession_scheduled h
  have hon := hs.onSchedule
  refine ⟨fun htwo => ?_, fun hone => ?_, fun d hd => ?_, ?_, fun hroi => ⟨?_, ?_⟩, ?_,
    hon.qpsInterval⟩
  · rw [hon.qpsIni, Config.rate, if_neg (by omega), if_pos htwo]
    rfl
  · rw [hon.qpsIni, Config.rate, if_pos hone, Config.qpsStep]
    ring
  · rw [hon.qpsIni]
    exact hon.dist (by omega) d hd
  · rw [hon.qpsInterval]
    exact hgood.interval_pos _
  · rw [hs.counter hroi]
    exact Int.natCast_nonneg _
  · exact loggedSession_counter_le hgood h hroi
  · refine Machine.ReachableBy.eachAfter (fun x a s' e hr _ hn he => ?_) h
    rintro i r ns rfl
    have hx := loggedSession_scheduled hr
    obtain ⟨rfl, heq, hcount, _⟩ := changed_event hx hn he
    exact ⟨hcount.symm.trans heq, hx.onSchedule.qpsInterval⟩

/-- **Rounding.** A change leaves the interval within one request of the interval before it, scaled
with the rate: not above it when the rate does not fall, above it when it falls. After `k` changes
the distance from the first interval, scaled with the rate, is at most what one request for each
change comes to when it is scaled on. -/
theorem interval_drift (htwo : cfg.qpsVar = 2) (hgood : cfg.GoodRates)
    (h : (loggedSession cfg strict nS nR).Reachable (s, l)) :
    (∀ a s' i r ns, Session.next cfg strict a s = some s' →
      s.rateEvent a s' = some (.changed i r ns) →
      let scaled : ℚ := s.obj.qpsInterval * (s'.obj.qpsIni / s.obj.qpsIni)
      if s'.obj.qpsIni < s.obj.qpsIni then
        scaled < s'.obj.qpsInterval ∧ (s'.obj.qpsInterval : ℚ) ≤ scaled + 1
      else scaled - 1 < s'.obj.qpsInterval ∧ (s'.obj.qpsInterval : ℚ) ≤ scaled) ∧
    |(s.obj.qpsInterval : ℚ) - cfg.intervalQPS * (s.obj.qpsIni / cfg.rate 0)| ≤
      ∑ j ∈ Finset.range (tally l).changes, s.obj.qpsIni / cfg.rate (j + 1) := by
  have hs := loggedSession_scheduled h
  have hrate := cfg.rate_pos htwo (hgood.listQPS htwo)
  constructor
  · intro a s' i r ns hn he
    obtain ⟨_, _, _, _, _, hon⟩ := changed_event hs hn he
    have hint : s'.obj.qpsInterval =
        Client.nextInterval s.obj.qpsIni s'.obj.qpsIni s.obj.qpsInterval := by
      rw [hon.qpsInterval, hon.qpsIni, hs.onSchedule.qpsIni, hs.onSchedule.qpsInterval,
        Config.interval, if_pos htwo]
    rw [hint]
    refine nextInterval_bounds ?_ ?_ ?_
    · rw [hs.onSchedule.qpsIni]
      exact hrate _
    · rw [hon.qpsIni]
      exact hrate _
    · rw [hs.onSchedule.qpsInterval]
      exact hgood.interval_pos _
  · rw [hs.onSchedule.qpsInterval, hs.onSchedule.qpsIni]
    exact cfg.abs_interval_sub_le htwo (hgood.listQPS htwo) hgood.interval _

end Schedule

/-! ## The requests of a period -/

/-- Between the rate check and the generation of the request. -/
def SenderPc.toGenerate : SenderPc → Bool
  | .start (.lockGen _) | .start (.gen _) => true
  | _ => false

section Sender

variable {cfg : Config} {n : Nat} {d d' : NetData} {pc pc' : SenderPc} {inp : Input}
  {op : LockOp Mutex}

/-- A sender that is to generate a request does so, or goes on to. -/
theorem senderStep_toGenerate (h : senderStep cfg n d pc inp = some (d', pc', op))
    (hpc : pc.toGenerate = true) (hdist : d.obj.dist ≠ none) :
    pc'.toGenerate = true ∨
      ∃ draw id genNs, pc.rateEvent d.obj d'.obj = some (.generated draw id genNs) := by
  obtain ⟨dist, hd⟩ := Option.ne_none_iff_exists'.mp hdist
  cases pc with
  | start pc =>
      cases pc with
      | lockGen t =>
          cases inp with
          | tau =>
              cases h
              exact .inl rfl
          | _ => cases h
      | gen t =>
          cases inp with
          | gen ns data =>
              simp only [senderStep, startReqStep] at h
              cases hg : d.obj.startReqGen cfg t ns data with
              | none => simp [Client.startReqGen, hd] at hg
              | some c =>
                  simp only [hg, Option.some.injEq, Prod.mk.injEq] at h
                  obtain ⟨rfl, _, _⟩ := h
                  simp only [Client.startReqGen, hd, Option.some.injEq] at hg
                  subst hg
                  refine .inr ?_
                  simp [SenderPc.rateEvent, StartPc.rateEvent, hd]
          | _ => cases h
      | _ => cases hpc
  | _ => cases hpc

/-- A rate check leads there. -/
theorem senderStep_check (h : senderStep cfg n d pc inp = some (d', pc', op))
    (he : pc.rateEvent d.obj d'.obj = some .counted ∨
      ∃ i r ns, pc.rateEvent d.obj d'.obj = some (.changed i r ns)) :
    pc.toGenerate = false ∧ pc'.toGenerate = true := by
  cases pc with
  | start pc =>
      cases pc with
      | rate t =>
          simp only [senderStep] at h
          cases inp with
          | clock ns =>
              simp only [startReqStep] at h
              split at h
              · cases h
              · next hs =>
                  split at hs
                  · cases hs
                    cases h
                    exact ⟨rfl, rfl⟩
                  · cases hs
              · next hs => split at hs <;> cases hs
              · next hs => split at hs <;> cases hs
          | tau =>
              simp only [startReqStep] at h
              split at h
              · cases h
              · next hs =>
                  split at hs
                  · cases hs
                  · cases hs
                    cases h
                    exact ⟨rfl, rfl⟩
              · next hs => split at hs <;> cases hs
              · next hs => split at hs <;> cases hs
          | _ => cases h
      | gen t =>
          simp [SenderPc.rateEvent, StartPc.rateEvent, Option.bind_eq_some_iff] at he
      | _ => simp [SenderPc.rateEvent, StartPc.rateEvent] at he
  | _ => simp [SenderPc.rateEvent] at he

end Sender

/-- What the log of one sender says about its rate checks. -/
structure Session.Checks {nR : Nat} (s : Session 1 nR) (l : List RateEvent) : Prop where
  pending : (tally l).pending = true → (s.client.senders 0).toGenerate = true
  /-- Each increment is followed by a request, and so is each change. -/
  count : (tally l).checked + (tally l).pending.toNat =
    (tally l).increments + if (tally l).changes = 0 then 0 else 1

section OneSender

variable {cfg : Config} {strict : Bool} {nR : Nat} {s s' : Session 1 nR}
  {a : SessionAction 1 nR} {l : List RateEvent}

/-- Where the only sender is before and after a step with an event. -/
theorem checks_event (h : Session.next cfg strict a s = some s') {e : RateEvent}
    (he : s.rateEvent a s' = some e) :
    ∃ inp d pc op, senderStep cfg 1 s.client.data (s.client.senders 0) inp = some (d, pc, op) ∧
      s'.client.senders 0 = pc ∧ (s.client.senders 0).rateEvent s.obj d.obj = some e := by
  by_cases ha : ∃ i inp, a = .client ⟨.sender i, inp⟩
  · obtain ⟨i, inp, rfl⟩ := ha
    obtain rfl : i = 0 := Subsingleton.elim _ _
    obtain ⟨d, pc, op, hstep, hobj, hsenders⟩ := Session.next_sender h
    rw [Session.rateEvent, hobj] at he
    exact ⟨inp, d, pc, op, hstep, by rw [hsenders, Function.update_self], he⟩
  · push Not at ha
    rw [(Session.next_other h ha).2.1] at he
    cases he

theorem Session.Checks.step (hobj : s.client.Objects) (hc : s.Checks l)
    (h : Session.next cfg strict a s = some s') :
    s'.Checks (l ++ (s.rateEvent a s').toList) := by
  cases he : s.rateEvent a s' with
  | none =>
      rw [Option.toList_none, List.append_nil]
      refine ⟨fun hpending => ?_, hc.count⟩
      have hbefore := hc.pending hpending
      by_cases ha : ∃ i inp, a = .client ⟨.sender i, inp⟩
      · obtain ⟨i, inp, rfl⟩ := ha
        obtain rfl : i = 0 := Subsingleton.elim _ _
        obtain ⟨d, pc, op, hstep, hobj', hsenders⟩ := Session.next_sender h
        rw [Session.rateEvent, hobj'] at he
        have hdist : s.client.data.obj.dist ≠ none := by
          cases hpc : s.client.senders 0 with
          | start pc₀ =>
              refine hobj.ready 0 pc₀ hpc ?_
              rw [hpc] at hbefore
              cases pc₀ with
              | lockGen _ | gen _ => trivial
              | _ => cases hbefore
          | _ =>
              rw [hpc] at hbefore
              cases hbefore
        rw [hsenders, Function.update_self]
        rcases senderStep_toGenerate hstep hbefore hdist with hgo | ⟨_, _, _, hgen⟩
        · exact hgo
        · rw [Session.obj, hgen] at he
          cases he
      · push Not at ha
        rw [(Session.next_other h ha).1]
        exact hbefore
  | some e =>
      rw [Option.toList_some]
      obtain ⟨inp, d, pc, op, hstep, hpc, hev⟩ := checks_event h he
      have hcount := hc.count
      cases e with
      | counted =>
          obtain ⟨hnot, hgo⟩ := senderStep_check hstep (.inl hev)
          have hidle : (tally l).pending = false := by
            by_contra hp
            rw [hc.pending (by simpa using hp)] at hnot
            cases hnot
          refine ⟨fun _ => by rw [hpc]; exact hgo, ?_⟩
          rw [hidle, Bool.toNat_false] at hcount
          rw [tally_concat]
          show (tally l).checked + 1 =
            (tally l).increments + 1 + if (tally l).changes = 0 then 0 else 1
          omega
      | changed i r ns =>
          obtain ⟨_, hgo⟩ := senderStep_check hstep (.inr ⟨i, r, ns, hev⟩)
          refine ⟨fun _ => by rw [hpc]; exact hgo, ?_⟩
          rw [tally_concat]
          simp [Tally.next]
      | generated draw id genNs =>
          refine ⟨fun hp => ?_, ?_⟩
          · rw [tally_concat] at hp
            cases hp
          · rw [tally_concat]
            exact hcount

/-- **The length of a period.** In every session of one sender, in every period that is completed:
as many requests as the interval says are generated by calls that made the rate check, if and only
if it is the first period. -/
theorem period_requests_iff (h : (loggedSession cfg strict 1 nR).Reachable (s, l))
    {l₁ l₂ : List RateEvent} {i : Int} {r : ℚ} {ns : UInt64}
    (hl : l = l₁ ++ .changed i r ns :: l₂) :
    ((tally l₁).checked : Int) = i ↔ (tally l₁).changes = 0 := by
  have heach : Machine.EachAfter (fun l₁ e => ∀ i r ns, e = .changed i r ns →
      (((tally l₁).checked : Int) = i ↔ (tally l₁).changes = 0)) l := by
    refine Machine.ReachableBy.eachAfter (fun x a s' e hr _ hn he => ?_) h
    rintro i r ns rfl
    obtain ⟨hi, heq, hcount, _⟩ := changed_event (loggedSession_scheduled hr) hn he
    have hchecks : x.1.Checks x.2 := by
      refine Machine.Reachable.invariant (P := fun x => x.1.Checks x.2) ?_ ?_ hr
      · rintro ⟨s, l⟩ ⟨⟨t, rfl⟩, rfl⟩
        exact ⟨nofun, rfl⟩
      · intro x a y hr hc hn
        obtain ⟨hn, hlog⟩ := Machine.logged_next.mp hn
        rw [hlog]
        exact hc.step (loggedSession_objects hr) hn
    -- at the check, no request is to be generated any more
    obtain ⟨inp, d, pc, op, hstep, _, hev⟩ := checks_event hn he
    have hidle : (tally x.2).pending = false := by
      by_contra hp
      have hnot := (senderStep_check hstep (.inr ⟨i, r, ns, hev⟩)).1
      rw [hchecks.pending (by simpa using hp)] at hnot
      cases hnot
    have hsum := hchecks.count
    rw [hidle, Bool.toNat_false] at hsum
    rw [hi, ← heq, hcount]
    split at hsum
    · next hzero => exact iff_of_true (by omega) hzero
    · next hne => exact iff_of_false (by omega) hne
  exact heach l₁ _ l₂ hl i r ns rfl

end OneSender

/-! ### A session with two rates -/

/-- One request to warm up; then the rates 3, 1, 3, 1 and 1, with 1 as the first interval. -/
def ratesConfig : Config :=
  { smallConfig with
    maxreqs := 100
    qpsVar := 2
    intervalQPS := 1
    iniQPS := 3
    qps1 := 1
    qps2 := 3
    qps3 := 1
    qps4 := 1 }

/-- A call of `startReq` with its rate check, up to the check. -/
def checkOne (change : Bool) (t : UInt64) : List (SessionAction 1 1) :=
  [.tau, .clock t, .tau, .tau, .tau, if change then .clock (t + 1) else .tau].map
    fun inp => .client ⟨.sender 0, inp⟩

/-- The rest of it, and the transfer of the request. -/
def sendChecked (t : UInt64) : List (SessionAction 1 1) :=
  [.tau, .gen (t + 2) ⟨[], Nat.zero_le _⟩, .clock (t + 3), .clock (t + 4), .clock (t + 5), .tau,
    .clock (t + 6), .wrote requestHeaderLen, .tau, .tau].map fun inp => .client ⟨.sender 0, inp⟩

/-- The request of the warm-up, and a period of one request up to the change of the rate. -/
def firstPeriod : List (SessionAction 1 1) :=
  (NetClient.sendOne 0 true 10 ⟨[], Nat.zero_le _⟩).map .client ++
  [.answer 0 0 ⟨[], Nat.zero_le _⟩] ++
  (NetClient.recvOne 0 20 (mkResponse 0 0 ⟨[], Nat.zero_le _⟩)).map .client ++
  checkOne false 30 ++ sendChecked 30 ++ checkOne true 40

/-- A second period, with one increment of the counter. -/
def secondPeriod : List (SessionAction 1 1) :=
  sendChecked 40 ++ checkOne false 50 ++ sendChecked 50 ++ checkOne true 60

/-- In a run that ends with a change of the rate. -/
theorem exists_period (run : List (SessionAction 1 1)) (ok : Session 1 1 → Tally → Int → Bool)
    (h : ((loggedSession ratesConfig true 1 1).exec run
      (⟨NetClient.start ratesConfig, [], 0⟩, [])).any
      (fun x => match x.2.getLast? with
        | some (.changed i _ _) => ok x.1 (tally x.2.dropLast) i
        | _ => false) = true) :
    ∃ s l₁ i r ns, (loggedSession ratesConfig true 1 1).Reachable (s, l₁ ++ [.changed i r ns]) ∧
      ok s (tally l₁) i = true := by
  obtain ⟨⟨s, l⟩, hs, hp⟩ := Machine.Reachable.exists_of_exec
    (M := loggedSession ratesConfig true 1 1) (P := fun x => (match x.2.getLast? with
      | some (.changed i _ _) => ok x.1 (tally x.2.dropLast) i
      | _ => false) = true) run ⟨⟨0, rfl⟩, rfl⟩ (by simpa only [Bool.decide_eq_true] using h)
  split at hp
  · next i r ns hlast =>
      refine ⟨s, l.dropLast, i, r, ns, ?_, hp⟩
      rw [List.dropLast_append_getLast? _ (by simpa using hlast)]
      exact hs
  · cases hp

theorem ratesConfig_good : ratesConfig.GoodRates := by
  refine ⟨by decide, fun _ q hq => ?_⟩
  simp only [ratesConfig, List.mem_cons, List.not_mem_nil, or_false] at hq
  rcases hq with rfl | rfl | rfl | rfl | rfl <;> norm_num

/-- The state after two changes. -/
theorem exists_two_changes : ∃ s l, (loggedSession ratesConfig true 1 1).Reachable (s, l) ∧
    s.obj.qpsInterval = 3 ∧ (tally l).changes = 2 := by
  obtain ⟨s, l₁, i, r, ns, hs, hok⟩ := exists_period (firstPeriod ++ secondPeriod)
    (fun s t _ => s.obj.qpsInterval == 3 && t.changes == 1) (by decide +kernel)
  rw [Bool.and_eq_true, beq_iff_eq, beq_iff_eq] at hok
  refine ⟨s, _, hs, hok.1, ?_⟩
  rw [tally_concat]
  exact congrArg (· + 1) hok.2

theorem rate_schedule_two : ∃ s l, (loggedSession ratesConfig true 1 1).Reachable (s, l) ∧
    (tally l).changes = 2 ∧ s.KeepsSchedule ratesConfig l := by
  obtain ⟨s, l, hs, _, hchanges⟩ := exists_two_changes
  exact ⟨s, l, hs, hchanges, rate_schedule (.inr rfl) ratesConfig_good hs⟩

theorem interval_drift_two : ∃ s l, (loggedSession ratesConfig true 1 1).Reachable (s, l) ∧
    |(s.obj.qpsInterval : ℚ) - ratesConfig.intervalQPS * (s.obj.qpsIni / ratesConfig.rate 0)| ≤
      ∑ j ∈ Finset.range 2, s.obj.qpsIni / ratesConfig.rate (j + 1) := by
  obtain ⟨s, l, hs, _, hchanges⟩ := exists_two_changes
  have hdrift := (interval_drift rfl ratesConfig_good hs).2
  rw [hchanges] at hdrift
  exact ⟨s, l, hs, hdrift⟩

/-- After two changes the rate is the first one again, and the interval is 3 instead of 1. -/
theorem interval_drifts : ∃ s l, (loggedSession ratesConfig true 1 1).Reachable (s, l) ∧
    (tally l).changes = 2 ∧
    1 < |(s.obj.qpsInterval : ℚ) -
      ratesConfig.intervalQPS * (ratesConfig.rate (2 % 5) / ratesConfig.rate 0)| := by
  obtain ⟨s, l, hs, hinterval, hchanges⟩ := exists_two_changes
  have hrate : ratesConfig.rate (2 % 5) = ratesConfig.rate 0 := by decide +kernel
  have hpos := ratesConfig.rate_pos rfl (ratesConfig_good.listQPS rfl) 0
  refine ⟨s, l, hs, hchanges, ?_⟩
  rw [hrate, div_self hpos.ne', hinterval]
  norm_num [ratesConfig]

/-- The first period has one request, as its interval says. -/
theorem period_requests_iff_first : ∃ s l₁ r ns,
    (loggedSession ratesConfig true 1 1).Reachable (s, l₁ ++ [.changed 1 r ns]) ∧
      ((tally l₁).checked : Int) = 1 := by
  obtain ⟨s, l₁, i, r, ns, hs, hok⟩ := exists_period firstPeriod
    (fun _ t i => i == 1 && t.changes == 0) (by decide +kernel)
  rw [Bool.and_eq_true, beq_iff_eq, beq_iff_eq] at hok
  obtain ⟨rfl, hchanges⟩ := hok
  exact ⟨s, l₁, r, ns, hs, (period_requests_iff hs rfl).mpr hchanges⟩

/-- The second period has two requests, with the same interval. -/
theorem period_requests_extra : ∃ s l₁ r ns,
    (loggedSession ratesConfig true 1 1).Reachable (s, l₁ ++ [.changed 1 r ns]) ∧
      (tally l₁).checked = 2 := by
  obtain ⟨s, l₁, i, r, ns, hs, hok⟩ := exists_period (firstPeriod ++ secondPeriod)
    (fun _ t i => i == 1 && t.checked == 2) (by decide +kernel)
  rw [Bool.and_eq_true, beq_iff_eq, beq_iff_eq] at hok
  obtain ⟨rfl, hchecked⟩ := hok
  exact ⟨s, l₁, r, ns, hs, hchecked⟩

end TailBench
