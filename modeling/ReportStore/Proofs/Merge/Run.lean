/-
  ReportStore.Proofs.Merge.Run
  ────────────────────────────
  **WHAT A RUN OF CALLS HANDS OUT, FAILED CALLS INCLUDED.**

  Calls are counted from the state that connecting leaves.  Along a run the
  watermark never goes back.  What is due ahead of it is what was due at the
  start; what is due at it can only get less:

      due at call j  =  what the calls in between took  ++  due at call k

  The watermarks are the strict maxima of the primary file's times, one
  after the other, and each is left only by handing out its record.
-/
import ReportStore.Proofs.Merge.Step

namespace ReportStore.Merge

variable {codec : Codec} {m : Merge}

/-- A call that hands out a record at a time; calls count from nought. -/
def Hands (codec : Codec) (m : Merge) (k : Nat) (time : Int) (r : Record) : Prop :=
  (m.after codec k).phase = .connected (some time) ∧
    ((m.after codec k).next codec).result = .ok (some r)

/-- The record of a time was handed out before a call. -/
def Handed (codec : Codec) (m : Merge) (k : Nat) (time : Int) : Prop :=
  ∃ j r, j < k ∧ Hands codec m j time r

/-- A call that fails. -/
def Failed (codec : Codec) (m : Merge) (k : Nat) : Prop :=
  ∃ e, ((m.after codec k).next codec).result = .error e

/-! ## §1. One call. -/

/-- Only a step at a watermark leads to a watermark. -/
theorem phase_of_next {w : Int} (h : (m.next codec).state.phase = .connected (some w)) :
    ∃ v, m.phase = .connected (some v) := by
  by_cases hv : ∃ v, m.phase = .connected (some v)
  · exact hv
  · exact absurd h ((next_idle codec (not_exists.1 hv)).2.2.2 w)

/-- Only a step at a watermark fails or hands out a record. -/
theorem phase_of_result (h : (m.next codec).result ≠ .ok none) :
    ∃ w, m.phase = .connected (some w) := by
  by_cases hw : ∃ w, m.phase = .connected (some w)
  · exact hw
  · exact absurd (next_idle codec (not_exists.1 hw)).1 h

/-- A call passes rows of each file, whatever it comes to. -/
theorem next_passed {v : Int} (hv : m.phase = .connected (some v)) :
    SourcesPassed codec v m.sources (m.next codec).state.sources := by
  rw [(sources_next codec hv).1]
  exact sweep_passed codec m.strictness v m.sources []

/-- Ahead of the watermark nothing changes. -/
theorem due_next_of_lt {v time : Int} (hv : m.phase = .connected (some v)) (ht : v < time) :
    (m.next codec).state.due codec time = m.due codec time :=
  (next_passed hv).due_of_lt ht

/-- **One call**: the watermark does not go back, and from it on nothing
becomes due. -/
theorem next_watermark {v w : Int} (hv : m.phase = .connected (some v))
    (hw : (m.next codec).state.phase = .connected (some w)) :
    v ≤ w ∧ ∀ time, w ≤ time →
      ∃ lost, m.due codec time = lost ++ (m.next codec).state.due codec time := by
  cases hresult : (m.next codec).result with
  | error e =>
    obtain ⟨hphase, -, taken, hdue⟩ := next_error hv hresult
    rw [hphase, hv] at hw
    injection hw with hw
    injection hw with hw
    subst hw
    refine ⟨Int.le_refl _, ?_⟩
    intro time ht
    by_cases heq : time = v
    · exact ⟨taken, heq ▸ hdue⟩
    · exact ⟨[], (due_next_of_lt hv (by omega)).symm⟩
  | ok handed =>
    cases handed with
    | none =>
      obtain ⟨hended, -⟩ := next_none hv hresult
      rw [hended] at hw
      cases hw
    | some r =>
      obtain ⟨-, -, -, hdue, hphase, hahead⟩ := next_some hv hresult
      -- The watermark is the next time of the primary file, or stays.
      have hle : v ≤ w := by
        rw [hphase] at hw
        injection hw with hw
        injection hw with hw
        cases htimes : (m.next codec).state.times with
        | nil =>
          rw [htimes] at hw
          exact Int.le_of_eq hw
        | cons x xs =>
          rw [htimes] at hw hahead
          have hx : v < x := hahead x rfl
          have hxw : x = w := hw
          omega
      refine ⟨hle, ?_⟩
      intro time ht
      by_cases heq : time = v
      · exact ⟨m.due codec time, by rw [heq, hdue, List.append_nil]⟩
      · exact ⟨[], (due_next_of_lt hv (by omega)).symm⟩

/-! ## §2. What is due along a run. -/

/-- **The calls before a watermark**: each stood at a watermark that is not
past it, and what is due from there on was due then. -/
theorem before_watermark {j : Nat} : ∀ {k : Nat}, j ≤ k → ∀ {w : Int},
    (m.after codec k).phase = .connected (some w) →
      ∃ v, (m.after codec j).phase = .connected (some v) ∧ v ≤ w ∧ ∀ time, w ≤ time →
        ∃ lost, (m.after codec j).due codec time = lost ++ (m.after codec k).due codec time := by
  intro k
  induction k with
  | zero =>
    intro hjk w hw
    obtain rfl : j = 0 := by omega
    exact ⟨w, hw, Int.le_refl _, fun time _ => ⟨[], rfl⟩⟩
  | succ k ih =>
    intro hjk w hw
    by_cases hj : j = k + 1
    · subst hj
      exact ⟨w, hw, Int.le_refl _, fun time _ => ⟨[], rfl⟩⟩
    · obtain ⟨u, hu⟩ := phase_of_next hw
      obtain ⟨v, hv, hvu, hdue⟩ := ih (by omega) hu
      obtain ⟨huw, hstep⟩ := next_watermark hu hw
      refine ⟨v, hv, by omega, ?_⟩
      intro time ht
      obtain ⟨lost, hlost⟩ := hdue time (by omega)
      obtain ⟨lost', hlost'⟩ := hstep time ht
      refine ⟨lost ++ lost', ?_⟩
      rw [hlost, hlost', List.append_assoc]
      rfl

/-- Whatever the calls before a watermark came to, they passed no row that is
ahead of it. -/
theorem passed_before : ∀ {k : Nat} {w : Int}, (m.after codec k).phase = .connected (some w) →
    SourcesPassed codec w m.sources (m.after codec k).sources := by
  intro k
  induction k with
  | zero => exact fun {w} _ => .refl codec w m.sources
  | succ k ih =>
    intro w hw
    obtain ⟨v, hv⟩ := phase_of_next hw
    obtain ⟨hvw, -⟩ := next_watermark hv hw
    have hpassed := (ih hv).trans (Int.le_refl v) (next_passed hv)
    exact hpassed.trans hvw (.refl codec w _)

/-- **A record is whole if no call before it lost a row of its time**: what
it unites is what was due at the start. -/
theorem due_eq_of_hands {k : Nat} {time : Int} {r : Record} (hhands : Hands codec m k time r)
    (hkept : ∀ j, j < k → Failed codec m j →
      (m.after codec j).phase = .connected (some time) →
        (m.after codec (j + 1)).due codec time = (m.after codec j).due codec time) :
    (m.after codec k).due codec time = m.due codec time := by
  obtain ⟨hk, hresult⟩ := hhands
  obtain ⟨hr, hne, -⟩ := next_some hk hresult
  have hdue : (m.after codec k).due codec time ≠ [] := by
    intro hnil
    rw [hnil] at hr
    exact hne hr
  -- By induction on the calls: only one that stands at the time can take of it,
  -- and one that took all of it would have left nothing for this record.
  have hall : ∀ i, i ≤ k → (m.after codec i).due codec time = m.due codec time := by
    intro i
    induction i with
    | zero => exact fun _ => rfl
    | succ i ih =>
      intro hik
      obtain ⟨v, hv, hvt, -⟩ := before_watermark (Nat.le_of_succ_le hik) hk
      obtain ⟨u, hu, -, hlater⟩ := before_watermark hik hk
      rw [← ih (by omega)]
      by_cases heq : v = time
      · subst heq
        cases hres : ((m.after codec i).next codec).result with
        | error e => exact hkept i (by omega) ⟨e, hres⟩ hv
        | ok handed =>
          cases handed with
          | none =>
            -- The stream would have ended before the call.
            have hended := (next_none hv hres).1
            rw [show (m.after codec (i + 1)).phase = _ from hended] at hu
            cases hu
          | some r' =>
            -- All of the time would have been handed out before the call.
            have hgone : (m.after codec (i + 1)).due codec v = [] := (next_some hv hres).2.2.2.1
            obtain ⟨lost, hlost⟩ := hlater v (Int.le_refl _)
            rw [hgone] at hlost
            exact absurd (List.append_eq_nil_iff.1 hlost.symm).2 hdue
      · exact due_next_of_lt hv (by omega)
  exact hall k (Nat.le_refl _)

/-! ## §3. The times that are handed out. -/

theorem handed_succ {k : Nat} {time : Int} :
    Handed codec m (k + 1) time ↔ Handed codec m k time ∨ ∃ r, Hands codec m k time r := by
  constructor
  · rintro ⟨j, r, hj, hhands⟩
    by_cases hjk : j = k
    · exact .inr ⟨r, hjk ▸ hhands⟩
    · exact .inl ⟨j, r, by omega, hhands⟩
  · rintro (⟨j, r, hj, hhands⟩ | ⟨r, hhands⟩)
    · exact ⟨j, r, by omega, hhands⟩
    · exact ⟨k, r, by omega, hhands⟩

/-- The invariant of a run at a watermark: the maxima before it were handed
out, those after it are still to come, and once it was handed out itself
there are none. -/
structure Reached (codec : Codec) (m : Merge) (k : Nat) (w : Int) (before : List Int) : Prop where
  maxima : strictMaxima m.times =
    before ++ w :: strictMaxima ((m.after codec k).times.dropWhile fun x => decide (x ≤ w))
  handed : ∀ time, Handed codec m k time ↔ time ∈ before ∨ (time = w ∧ Handed codec m k w)
  last : Handed codec m k w → (m.after codec k).times.dropWhile (fun x => decide (x ≤ w)) = []

/-- A call that fails leaves the invariant as it is. -/
theorem Reached.of_error {k : Nat} {w : Int} {before : List Int}
    (h : Reached codec m k w before) (hw : (m.after codec k).phase = .connected (some w))
    {e : Fault} (hresult : ((m.after codec k).next codec).result = .error e) :
    Reached codec m (k + 1) w before := by
  obtain ⟨-, hpassed, -⟩ := next_error hw hresult
  have hrest : (m.after codec k).times.dropWhile (fun x => decide (x ≤ w)) =
      (m.after codec (k + 1)).times.dropWhile (fun x => decide (x ≤ w)) := hpassed.times_past
  have hsame : ∀ time, Handed codec m (k + 1) time ↔ Handed codec m k time := by
    intro time
    rw [handed_succ]
    constructor
    · rintro (h | ⟨r, -, hr⟩)
      · exact h
      · rw [hresult] at hr
        cases hr
    · exact .inl
  refine ⟨by rw [← hrest]; exact h.maxima, ?_, ?_⟩
  · intro time
    rw [hsame, hsame]
    exact h.handed time
  · intro hw'
    rw [← hrest]
    exact h.last ((hsame w).1 hw')

/-- A call that hands out a record leads to the next maximum, or stays. -/
theorem Reached.of_some {k : Nat} {v w : Int} {before : List Int} {r : Record}
    (h : Reached codec m k v before) (hv : (m.after codec k).phase = .connected (some v))
    (hresult : ((m.after codec k).next codec).result = .ok (some r))
    (hw : (m.after codec (k + 1)).phase = .connected (some w)) :
    ∃ before, Reached codec m (k + 1) w before := by
  obtain ⟨-, -, hpassed, -, hphase, hahead⟩ := next_some hv hresult
  have hhanded : ∀ time, Handed codec m (k + 1) time ↔ time ∈ before ∨ time = v := by
    intro time
    rw [handed_succ, h.handed]
    constructor
    · rintro ((hb | ⟨heq, -⟩) | ⟨r', hphase', -⟩)
      · exact .inl hb
      · exact .inr heq
      · rw [hv] at hphase'
        injection hphase' with heq
        injection heq with heq
        exact .inr heq.symm
    · rintro (hb | heq)
      · exact .inl (.inl hb)
      · exact .inr ⟨r, heq ▸ hv, hresult⟩
  have hdrop : (m.after codec k).times.dropWhile (fun x => decide (x ≤ v)) =
      (m.after codec (k + 1)).times :=
    hpassed.times_past.trans (dropWhile_of_lt_head hahead)
  have hmaxima := h.maxima
  rw [hdrop] at hmaxima
  have hphase' : (m.after codec (k + 1)).phase =
      .connected (some ((m.after codec (k + 1)).times.head?.getD v)) := hphase
  rw [hphase'] at hw
  injection hw with hw
  injection hw with hw
  cases htimes : (m.after codec (k + 1)).times with
  | nil =>
    -- The primary file has no row left, and the watermark stays.
    rw [htimes] at hw hmaxima
    obtain rfl : v = w := hw
    refine ⟨before, ?_, ?_, ?_⟩
    · rw [htimes]
      exact hmaxima
    · intro time
      rw [hhanded, hhanded]
      simp
    · intro _
      rw [htimes]
      rfl
  | cons x xs =>
    rw [htimes] at hw hmaxima
    obtain rfl : x = w := hw
    rw [strictMaxima_cons] at hmaxima
    have hrest : (x :: xs).dropWhile (fun y => decide (y ≤ x)) =
        xs.dropWhile (fun y => decide (y ≤ x)) := by
      rw [List.dropWhile_cons, if_pos (by simp)]
    -- The maxima ascend, so the next one is not among those before it.
    have hnew : ¬ Handed codec m (k + 1) x := by
      have hpairwise := strictMaxima_pairwise m.times
      rw [hmaxima, List.pairwise_append] at hpairwise
      have hvx : v < x := by
        have := (List.pairwise_cons.1 hpairwise.2.1).1 x List.mem_cons_self
        exact this
      rw [hhanded]
      rintro (hx | hx)
      · have := hpairwise.2.2 x hx x (List.mem_cons_of_mem _ List.mem_cons_self)
        omega
      · omega
    refine ⟨before ++ [v], ?_, ?_, ?_⟩
    · rw [htimes, hrest, List.append_assoc]
      exact hmaxima
    · intro time
      rw [hhanded, List.mem_append, List.mem_singleton]
      constructor
      · exact .inl
      · rintro (h' | ⟨-, h'⟩)
        · exact h'
        · exact absurd h' hnew
    · exact fun h' => absurd h' hnew

/-- **The invariant holds at every watermark of a run.** -/
theorem reached (hfresh : m.phase = .connected m.times.head?) : ∀ {k : Nat} {w : Int},
    (m.after codec k).phase = .connected (some w) → ∃ before, Reached codec m k w before := by
  intro k
  induction k with
  | zero =>
    intro w hw
    -- Before the first call nothing was handed out.
    have hnone : ∀ time, ¬ Handed codec m 0 time := by
      rintro time ⟨j, -, hj, -⟩
      omega
    have hhead : m.times.head? = some w := by
      have hphase : m.phase = .connected (some w) := hw
      rw [hfresh] at hphase
      injection hphase
    obtain ⟨ts, htimes⟩ := List.head?_eq_some_iff.1 hhead
    refine ⟨[], ?_, ?_, fun h => absurd h (hnone w)⟩
    · show strictMaxima m.times = w :: strictMaxima (m.times.dropWhile _)
      rw [htimes, strictMaxima_cons, List.dropWhile_cons, if_pos (by simp)]
    · intro time
      simp [hnone]
  | succ k ih =>
    intro w hw
    obtain ⟨v, hv⟩ := phase_of_next hw
    obtain ⟨before, hreached⟩ := ih hv
    cases hresult : ((m.after codec k).next codec).result with
    | error e =>
      have hstay : (m.after codec (k + 1)).phase = (m.after codec k).phase :=
        (next_error hv hresult).1
      rw [hstay, hv] at hw
      injection hw with hw
      injection hw with hw
      subst hw
      exact ⟨before, hreached.of_error hv hresult⟩
    | ok handed =>
      cases handed with
      | none =>
        have hended : (m.after codec (k + 1)).phase = .ended := (next_none hv hresult).1
        rw [hended] at hw
        cases hw
      | some r => exact hreached.of_some hv hresult hw

/-- **The times handed out before a watermark** are the maxima before it, and
it itself if its own record was handed out already. -/
theorem handed_iff (hfresh : m.phase = .connected m.times.head?) {k : Nat} {w : Int}
    (hw : (m.after codec k).phase = .connected (some w)) (time : Int) :
    Handed codec m k time ↔
      time ∈ strictMaxima m.times ∧ (time < w ∨ Handed codec m k w) := by
  obtain ⟨before, hmaxima, hhanded, hlast⟩ := reached hfresh hw
  have hpairwise := strictMaxima_pairwise m.times
  rw [hmaxima, List.pairwise_append] at hpairwise
  rw [hhanded, hmaxima]
  constructor
  · rintro (hb | ⟨rfl, hw'⟩)
    · exact ⟨List.mem_append_left _ hb, .inl (hpairwise.2.2 time hb w List.mem_cons_self)⟩
    · exact ⟨List.mem_append_right _ List.mem_cons_self, .inr hw'⟩
  · rintro ⟨hmem, hcase⟩
    rcases List.mem_append.1 hmem with hb | hb
    · exact .inl hb
    · rcases List.mem_cons.1 hb with rfl | hb
      · rcases hcase with hlt | hw'
        · omega
        · exact .inr ⟨rfl, hw'⟩
      · -- What comes after the watermark is past it, and there only is some
        -- before the watermark was handed out.
        have hlt : w < time := (List.pairwise_cons.1 hpairwise.2.1).1 time hb
        rcases hcase with hlt' | hw'
        · omega
        · rw [hlast hw'] at hb
          cases hb

end ReportStore.Merge
