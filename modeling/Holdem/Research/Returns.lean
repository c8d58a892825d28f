import Holdem.Research.Settled

/-!
# Research — Returns

Why `search` returns.  Nothing in its loop bounds the turns: it spins in `waitTaskQueueIdle` for as
long as something is queued, and once all tasks are pushed it pushes one round of discount or
strategy tasks after the other until the last task is counted.  That it comes to an end is the work
of the consumers, and they do it under every schedule in which every thread takes a line again and
again.

Where no task is held or queued, `search` comes round to push one (`leads_of_due`) or to leave
(`leads_of_counted`), so one more task is counted from any point of the loop (`leads_away`).  The
call returns (`search_returns`): the tasks that are not counted yet run out, and a killed call goes
through its turn without waiting.
-/

namespace Holdem
open Support

variable {m : Nat} {cfg : Config} {n : Int32} {x : Nat} {s s' : System m}

/-! ### A turn of the loop -/

/-- Along its lines `search` comes to `Q`, when every line that does not wait brings the rank of the
line down, and what follows a wait ranks below the wait. -/
theorem leads_of_lines {R Q : System m → Prop} (hR : Stays cfg n x R Q) (i₀ : Fin m)
    (rank : Pc → Nat)
    (hwait : ∀ w, rank w.after < rank (.waiting w) ∧ rank w.after < rank (.checking w))
    (hline : ∀ (s : System m) (expired : Bool) (s' : System m), s.Working n x → R s →
      s.pc.wait = none →
      s' = ⟨s.research.next cfg expired s.pc, s.research.effect cfg s.pc⟩ → s'.Working n x →
      Q s' ∨ rank s'.pc < rank s.pc) :
    SearchLeads cfg (fun s => s.Working n x ∧ R s)
      (fun s => s.Away n x ∨ s.Working n x ∧ Q s) := by
  refine Leads.of_rank (fun s => rank s.pc) fun k => ?_
  rintro sched hfair s ⟨⟨hw, hs⟩, rfl⟩
  cases hpc : s.pc.wait with
  | some w =>
      obtain ⟨j, hj⟩ := leads_of_wait hR i₀ w sched hfair s ⟨hw, hpc, hs⟩
      refine ⟨j, ?_⟩
      rcases hj with haway | ⟨hw', hQ | ⟨hafter, hs'⟩⟩
      · exact Or.inl (Or.inl haway)
      · exact Or.inl (Or.inr ⟨hw', hQ⟩)
      · refine Or.inr ⟨⟨hw', hs'⟩, ?_⟩
        obtain ⟨h₁, h₂⟩ := hwait w
        cases hpc' : s.pc with
        | waiting w' | checking w' =>
            rw [hpc'] at hpc
            cases hpc
            simpa only [hafter]
        | _ =>
            rw [hpc'] at hpc
            cases hpc
  | none =>
      have hstep : SearchLeads cfg
          (fun t : System m => t.Working n x ∧ R t ∧ t.pc = s.pc)
          (fun t => t.Away n x ∨ t.Working n x ∧ (Q t ∨ R t ∧ rank t.pc < rank s.pc)) := by
        refine leads_working (fun _ => 0) .search ?_ ?_
        · rintro t expired t' ht ⟨hRt, hpct⟩ rfl ht'
          rw [← hpct] at hpc ⊢
          rcases hline t expired _ ht hRt hpc rfl ht' with hQ | hlt
          · exact Or.inl (Or.inl hQ)
          · rcases hR.search t expired _ ht hRt rfl ht' with hQ | hR'
            · exact Or.inl (Or.inl hQ)
            · exact Or.inl (Or.inr ⟨hR', hlt⟩)
        · rintro t i r ht ⟨hRt, hpct⟩ hr ht'
          rcases hR.consume t i r ht hRt hr ht' with hQ | hR'
          · exact Or.inl (Or.inl hQ)
          · exact Or.inr ⟨⟨hR', hpct⟩, Nat.le_refl _, fun h => by cases h⟩
      obtain ⟨j, hj⟩ := hstep sched hfair s ⟨hw, hs, rfl⟩
      refine ⟨j, ?_⟩
      rcases hj with haway | ⟨hw', hQ | ⟨hR', hlt⟩⟩
      · exact Or.inl (Or.inl haway)
      · exact Or.inl (Or.inr ⟨hw', hQ⟩)
      · exact Or.inr ⟨⟨hw', hR'⟩, hlt⟩

/-- Before all tasks are pushed, `search` is yet to push one. -/
def System.Due (s : System m) : Prop :=
  s.research.numIterations < s.research.maxIterations ∨ ∃ id, s.pc = .push id

/-- A task is due while `numIterations` is below `maxIterations`. -/
theorem Research.taskNum_pos {r : Research m} (hmax : r.maxIterations < 2 ^ 31)
    (h : r.numIterations < r.maxIterations) : 0 < r.taskNum := by
  have hdif : ((r.maxIterations : Int) - r.numIterations).bmod (2 ^ 32) =
      r.maxIterations - r.numIterations := Int.bmod_eq_of_le (by omega) (by omega)
  simp only [taskNum, hdif]
  split <;> omega

/-- A non-negative number of iterations is kept as it is. -/
theorem toNat_lt_of_nonneg (hn : 0 ≤ n.toInt) : n.toUInt32.toNat < 2 ^ 31 := by
  have hlt := n.toUInt32.toBitVec.isLt
  have hint : n.toInt = n.toUInt32.toBitVec.toInt := rfl
  have hnat : n.toUInt32.toNat = n.toUInt32.toBitVec.toNat := rfl
  rw [hint, BitVec.toInt_eq_toNat_cond] at hn
  rw [hnat]
  split at hn <;> omega

theorem System.Working.max_eq (h : s.Working n x) :
    s.research.maxIterations = n.toUInt32.toNat :=
  (h.underway.counting.counts h.underway.set).max_eq

theorem stays_due : Stays (m := m) cfg n x System.Due
    fun s => ∃ t ∈ s.research.tqResearch, t.IsResearch where
  search := by
    rintro s expired s' hw hdue rfl -
    by_cases hpush : ∃ id, s.pc = .push id
    · obtain ⟨id, hid⟩ := hpush
      refine Or.inl ⟨.research id, ?_, trivial⟩
      simp only [hid, Research.effect]
      exact List.mem_append_right _ (List.mem_singleton.mpr rfl)
    · have hlt := hdue.resolve_right hpush
      right
      by_cases hinc : s.pc = .increment
      · exact Or.inr ⟨s.research.numIterations + 1, by simp only [hinc, Research.next]⟩
      · left
        have hi : (s.research.effect cfg s.pc).numIterations = s.research.numIterations := by
          have hset := hw.underway.set
          cases hpc : s.pc with
          | resetIterations k => rw [hpc] at hset; cases hset
          | increment => exact absurd hpc hinc
          | pushDiscount i | pushStrategy i =>
              simp only [Research.effect]
              split <;> rfl
          | _ => rfl
        simpa only [hi, (Research.effect_counters cfg s.research hw.underway.set).2] using hlt
  consume := by
    rintro s i r - hdue hr -
    obtain ⟨hi, hm⟩ := Research.consume_counters hr
    right
    rcases hdue with hlt | hpush
    · exact Or.inl (by simpa only [hi, hm] using hlt)
    · exact Or.inr hpush

/-- While tasks are due, `search` comes round and pushes one. -/
theorem leads_of_due (hn : 0 ≤ n.toInt) (i₀ : Fin m) :
    SearchLeads cfg (fun s : System m => s.Working n x ∧ s.Due)
      (fun s => s.Away n x ∨ s.Working n x ∧ ∃ t ∈ s.research.tqResearch, t.IsResearch) := by
  refine leads_of_lines stays_due i₀ (fun pc => pc.left cfg.agentSize) (fun w => ?_) ?_
  · obtain ⟨h₁, h₂⟩ := w.left_after cfg.agentSize
    exact ⟨h₁, Nat.lt_trans h₁ h₂⟩
  · rintro s expired s' hw hdue hwait rfl hw'
    have hmax := hw.max_eq ▸ toNat_lt_of_nonneg hn
    rcases Research.left_next cfg expired s.research hwait
      hw.searching with ⟨-, hloop⟩ | hidle | hlt
    · have hset := hw.underway.set
      cases hpc : s.pc with
      | resetMax k => rw [hpc] at hset; cases hset
      | push id =>
          refine Or.inl ⟨.research id, ?_, trivial⟩
          simp only [Research.effect]
          exact List.mem_append_right _ (List.mem_singleton.mpr rfl)
      | taskDue =>
          rw [hpc] at hloop
          rcases hdue with hlt | ⟨id, hid⟩
          · exact absurd (Research.taskNum_pos hmax hlt) hloop
          · cases hpc.symm.trans hid
      | _ =>
          rw [hpc] at hloop
          cases hloop
    · cases hidle.symm.trans hw'.searching
    · exact Or.inr hlt

/-- The lines until `search` leaves through `numProcessed == maxIterations`. -/
def Pc.toExit (agents : Nat) : Pc → Nat
  | .completed => 0
  | .running   => 1
  | pc         => pc.left agents

theorem stays_counted : Stays (m := m) cfg n x
    (fun s => s.research.numProcessed = s.research.maxIterations) fun _ => False where
  search := by
    rintro s expired s' hw hall rfl -
    obtain ⟨hp, hm⟩ := Research.effect_counters cfg s.research hw.underway.set
    exact Or.inr (by simpa only [hp, hm] using hall)
  consume := by
    rintro s i r hw hall hr hw'
    obtain ⟨-, hm⟩ := Research.consume_counters hr
    have hp : r.numProcessed = s.research.numProcessed := hw'.processed.trans hw.processed.symm
    exact Or.inr (by simpa only [hp, hm] using hall)

/-- With all tasks counted, `search` comes round and leaves. -/
theorem leads_of_counted (i₀ : Fin m) :
    SearchLeads cfg
      (fun s : System m => s.Working n x ∧ s.research.numProcessed = s.research.maxIterations)
      (fun s => s.Away n x ∨ s.Working n x ∧ False) := by
  refine leads_of_lines stays_counted i₀ (fun pc => pc.toExit cfg.agentSize) (fun w => ?_) ?_
  · obtain ⟨h₁, h₂⟩ := w.left_after cfg.agentSize
    cases w <;> exact ⟨h₁, Nat.lt_trans h₁ h₂⟩
  · rintro s expired s' hw hall hwait rfl hw'
    right
    have hle : ∀ pc : Pc, pc.toExit cfg.agentSize ≤ pc.left cfg.agentSize := by
      intro pc
      cases pc <;> simp only [Pc.toExit, Pc.left] <;> omega
    have hnext := hle (s.research.next cfg expired s.pc)
    rcases Research.left_next cfg expired s.research hwait
      hw.searching with ⟨hrun, hloop⟩ | hidle | hlt
    · simp only [hrun]
      have hset := hw.underway.set
      have hcount := hw.underway.counting
      cases hpc : s.pc with
      | resetMax k => rw [hpc] at hset; cases hset
      | push id =>
          -- the task about to be pushed is not counted yet
          rw [System.Counting, hpc] at hcount
          obtain ⟨-, -, hid, k, rfl, htally⟩ := hcount
          have := htally.numProcessed_le
          omega
      | taskDue =>
          simp only [Pc.toExit, Pc.left]
          omega
      | _ =>
          rw [hpc] at hloop
          cases hloop
    · cases hidle.symm.trans hw'.searching
    · cases hpc : s.pc with
      | completed =>
          -- here it leaves
          have hs := hw'.searching
          simp only [hpc, Research.next, if_pos hall, Pc.searching] at hs
          cases hs
      | running => simp only [Research.next, hw.running, if_true, Pc.toExit, Nat.zero_lt_one]
      | _ =>
          rw [hpc] at hlt hnext
          exact Nat.lt_of_le_of_lt hnext hlt

/-! ### The call -/

theorem idsOf_eq_zero {q : List Task} (h : ¬ ∃ t ∈ q, t.IsResearch) : idsOf q = 0 := by
  induction q with
  | nil => rfl
  | cons t q ih =>
      rw [idsOf_cons, ih fun ⟨u, hu, hr⟩ => h ⟨u, List.mem_cons_of_mem _ hu, hr⟩, add_zero]
      cases t with
      | research id => exact absurd ⟨_, List.mem_cons_self, trivial⟩ h
      | discount a | strategy a => rfl

theorem Consumer.inProcess_eq_zero {c : Consumer} (h : ¬ ∃ t ∈ c.task, t.IsResearch) :
    c.inProcess = 0 := by
  cases c with
  | testing | fetching | exited => rfl
  | processing t | counting t =>
      cases t with
      | research id => exact absurd ⟨_, rfl, trivial⟩ h
      | discount a | strategy a => rfl

/-- At every point of the loop a research task is held, or queued, or due, or all are counted. -/
theorem System.Working.cases (h : s.Working n x) :
    (∃ i, ∃ t ∈ (s.research.consumers i).task, t.IsResearch) ∨
      (∃ t ∈ s.research.tqResearch, t.IsResearch) ∨ s.Due ∨
      s.research.numProcessed = s.research.maxIterations := by
  by_cases hheld : ∃ i, ∃ t ∈ (s.research.consumers i).task, t.IsResearch
  · exact Or.inl hheld
  · by_cases hqueue : ∃ t ∈ s.research.tqResearch, t.IsResearch
    · exact Or.inr (Or.inl hqueue)
    · have hcounts := h.underway.counting.counts h.underway.set
      have hsum := hcounts.sum
      have hin : total Consumer.inProcess s.research.consumers = 0 :=
        total_eq_zero_iff.mpr fun i => Consumer.inProcess_eq_zero fun hi => hheld ⟨i, hi⟩
      rw [hin, idsOf_eq_zero hqueue, h.underway.cleaned h.searching, idsOf_nil] at hsum
      have hle := hcounts.iterations_le
      right
      right
      by_cases hpush : ∃ id, s.pc = .push id
      · exact Or.inl (Or.inr hpush)
      · have hbehind : s.pc.behind = 0 := by
          cases hpc : s.pc with
          | push id => exact absurd ⟨id, hpc⟩ hpush
          | _ => rfl
        rw [hbehind, Multiset.card_zero] at hsum
        by_cases hall : s.research.numIterations < s.research.maxIterations
        · exact Or.inl (Or.inl hall)
        · exact Or.inr (by omega)

/-- Nothing is left to come but that the call gets away. -/
theorem leads_away_of {P : System m → Prop}
    (h : SearchLeads cfg P fun s => s.Away n x ∨ s.Working n x ∧ False) :
    SearchLeads cfg P fun s => s.Away n x :=
  h.mono (fun _ hs => hs) fun _ hs => hs.resolve_right And.right

/-- From any point of the loop, one more task is counted, unless the call returns or is killed. -/
theorem leads_away (hn : 0 ≤ n.toInt) (i₀ : Fin m) :
    SearchLeads cfg (fun s : System m => s.Working n x) (fun s => s.Away n x) := by
  intro sched hfair s hw
  rcases hw.cases with h | h | h | h
  · exact leads_away_of leads_of_held sched hfair s ⟨hw, h⟩
  · exact leads_away_of ((leads_of_queued i₀).then_ leads_of_held) sched hfair s ⟨hw, h⟩
  · exact leads_away_of (((leads_of_due hn i₀).then_ (leads_of_queued i₀)).then_ leads_of_held)
      sched hfair s ⟨hw, h⟩
  · exact leads_away_of (leads_of_counted i₀) sched hfair s ⟨hw, h⟩

/-- A call under way returns or is killed. -/
theorem leads_of_underway (hn : 0 ≤ n.toInt) (i₀ : Fin m) :
    SearchLeads cfg (fun s : System m => s.Underway n)
      (fun s => s.pc.searching = false ∨ s.research.consumeRunning = false) := by
  refine Leads.of_rank (fun s => n.toUInt32.toNat - s.research.numProcessed) fun k => ?_
  rintro sched hfair s ⟨hunder, rfl⟩
  cases hs : s.pc.searching with
  | false => exact ⟨0, Or.inl (Or.inl hs)⟩
  | true =>
      cases hrun : s.research.consumeRunning with
      | false => exact ⟨0, Or.inl (Or.inr hrun)⟩
      | true =>
          obtain ⟨j, hunder', hj⟩ := leads_away hn i₀ sched hfair s ⟨hunder, hs, hrun, rfl⟩
          refine ⟨j, ?_⟩
          rcases hj with hidle | hkill | hlt
          · exact Or.inl (Or.inl hidle)
          · exact Or.inl (Or.inr hkill)
          · have hcounts := hunder'.counting.counts hunder'.set
            have hle := Nat.le_trans hcounts.processed_le hcounts.iterations_le
            rw [hcounts.max_eq] at hle
            exact Or.inr ⟨hunder', by omega⟩

/-- A killed call returns. -/
theorem leads_of_killed :
    SearchLeads cfg
      (fun s : System m => s.pc.searching = true ∧ s.research.consumeRunning = false)
      (fun s => s.pc.searching = false) := by
  refine leads_of_steps (fun s => s.pc.leftKilled cfg.agentSize) .search ?_ ?_
  · rintro s a s' ⟨hs, hkill⟩ ha hstep
    cases a with
    | call k => cases ha
    | kill =>
        simp only [step, Option.some.injEq] at hstep
        subst hstep
        exact Or.inr ⟨⟨hs, rfl⟩, Nat.le_refl _, False.elim⟩
    | consume i =>
        simp only [step, Option.map_eq_some_iff] at hstep
        obtain ⟨r, hr, rfl⟩ := hstep
        exact Or.inr ⟨⟨hs, (Research.consume_moves hr).1.trans hkill⟩, Nat.le_refl _, False.elim⟩
    | search expired =>
        simp only [step, hs, if_true, Option.some.injEq] at hstep
        subst hstep
        have hlt := Research.leftKilled_next cfg expired hkill hs
        cases hs' : (s.research.next cfg expired s.pc).searching with
        | false => exact Or.inl rfl
        | true =>
            refine Or.inr ⟨⟨rfl, ?_⟩, hlt.le, fun _ => hlt⟩
            simpa only [Research.effect_consumeRunning] using hkill
  · rintro s a ⟨hs, -⟩ - hturn
    cases a with
    | search expired => exact ⟨_, by rw [step, if_pos hs]⟩
    | call k | consume i | kill => cases hturn

/-- A call that was just made sets its counters. -/
theorem leads_of_resetting :
    SearchLeads cfg
      (fun s : System m => s.Sets n ∧ s.pc.resetting = true ∧ s.Alive)
      (fun s => s.Underway n) := by
  refine leads_of_steps (fun s => s.pc.left cfg.agentSize) .search ?_ ?_
  · rintro s a s' ⟨hsets, hset, halive⟩ ha hstep
    have hsets' := hsets.step ha hstep
    have halive' := halive.step hstep
    cases a with
    | call k => cases ha
    | kill =>
        simp only [step, Option.some.injEq] at hstep
        subst hstep
        exact Or.inr ⟨⟨hsets', hset, halive'⟩, Nat.le_refl _, False.elim⟩
    | consume i =>
        simp only [step, Option.map_eq_some_iff] at hstep
        obtain ⟨r, hr, rfl⟩ := hstep
        exact Or.inr ⟨⟨hsets', hset, halive'⟩, Nat.le_refl _, False.elim⟩
    | search expired =>
        simp only [step, Option.ite_none_right_eq_some, Option.some.injEq] at hstep
        obtain ⟨-, rfl⟩ := hstep
        rw [System.Sets] at hsets
        cases hpc : s.pc with
        | resetIterations k | resetProcessed k =>
            rw [hpc] at hsets'
            refine Or.inr ⟨⟨hsets', rfl, ?_⟩, ?_, fun _ => ?_⟩
            · simpa only [hpc] using halive'
            · simp only [Research.next, Pc.left]
              omega
            · simp only [Research.next, Pc.left]
              omega
        | resetMax k =>
            rw [hpc] at hsets hsets' halive'
            obtain ⟨-, -, htrace, -⟩ := hsets
            refine Or.inl ⟨hsets'.counting rfl, rfl, fun _ => ?_, halive'⟩
            simp only [Research.effect, htrace]
            rfl
        | _ =>
            rw [hpc] at hset
            cases hset
  · rintro s a ⟨-, hset, -⟩ - hturn
    have hs : s.pc.searching = true := by
      cases hpc : s.pc with
      | idle last => rw [hpc] at hset; cases hset
      | _ => rfl
    cases a with
    | search expired => exact ⟨_, by rw [step, if_pos hs]⟩
    | call k | consume i | kill => cases hturn

/-- A call comes to its end, whatever the clock says and whenever it is killed. -/
theorem leads_returned (hn : 0 ≤ n.toInt) (i₀ : Fin m) :
    SearchLeads cfg
      (fun s : System m => s.Sets n ∧ s.pc.resetting = true ∧ s.Alive)
      (fun s => s.pc.searching = false) := by
  refine leads_of_resetting.trans ((leads_of_underway hn i₀).trans ?_)
  intro sched hfair s h
  cases hs : s.pc.searching with
  | false => exact ⟨0, hs⟩
  | true =>
      have hkill := h.resolve_left (by rw [hs]; exact Bool.noConfusion)
      exact leads_of_killed sched hfair s ⟨hs, hkill⟩

/-- **`search` returns.**  A call of `search` with a non-negative number of iterations, made where
no research task is left and the consumers run, returns under every fair schedule of the threads,
whatever the clock says and whenever it is killed, as long as there is a consumer. -/
theorem search_returns (cfg : Config) (n : Int32) (hn : 0 ≤ n.toInt) (hm : 0 < m)
    (s₀ s₁ : System m) (hsettled : s₀.Settled) (halive : s₀.Alive)
    (hcall : step cfg s₀ (.call n) = some s₁) (sched : Nat → Act m)
    (hfair : Fair Act.Internal Party.Turn sched) :
    ∃ k, (after (step cfg) sched s₁ k).pc.searching = false := by
  obtain ⟨hsets, hset⟩ := System.Sets.call hsettled hcall
  exact leads_returned hn ⟨0, hm⟩ sched hfair s₁ ⟨hsets, hset, halive.step hcall⟩

theorem alive_fresh (m : Nat) : (System.fresh m).Alive := fun _ _ => Consumer.noConfusion

/-- `search` and the only consumer take turns. -/
def alternating : Nat → Act 1 :=
  roundRobin fun j : Fin 2 => if j.val = 0 then .search false else .consume (Fin.last 0)

theorem fair_alternating : Fair Act.Timely Party.Turn alternating := by
  refine fair_roundRobin ?_ ?_
  · intro j
    split
    · rfl
    · trivial
  · intro p
    cases p with
    | search => exact ⟨0, trivial⟩
    | consumer i => exact ⟨1, Subsingleton.elim _ i⟩

theorem search_returns_three :
    ∃ s₁, step pairConfig (System.fresh 1) (.call 3) = some s₁ ∧
      ∃ k, (after (step pairConfig) alternating s₁ k).pc.searching = false :=
  ⟨_, rfl, search_returns pairConfig 3 (by decide) Nat.zero_lt_one (System.fresh 1) _
    (atRest_fresh 1).settled (alive_fresh 1) rfl alternating
    (fair_alternating.mono fun _ ha => ha.internal)⟩

end Holdem
