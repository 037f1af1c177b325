/-
  ReportStore.Proofs.Merge.Again
  ──────────────────────────────
  **FILES REGISTERED A SECOND TIME CHANGE NOTHING.**

  Behind the files of a merge its last ones are registered once more.  Both
  merges connect or fail alike, and while no step fails they go on side by
  side: the second reading of a file stands where the first one stands, and
  what it adds has been united before:

      union of (a ++ b ++ b)  =  union of (a ++ b)

  A step that fails does so before it comes to the second reading, so both
  merges fail with the same fault.
-/
import ReportStore.Proofs.Fragments
import ReportStore.Proofs.Merge.Connecting
import ReportStore.Proofs.Merge.Whole

namespace ReportStore.Merge

variable {codec : Codec} {strictness : Strictness} {w : Int} {t : FileTree} {m m' : Merge}

/-! ## §1. A pass does not look at the union. -/

/-- **What a pass reads does not depend on what it is united with.** -/
theorem drainWithin_apart (codec : Codec) (strictness : Strictness) (w : Int) :
    ∀ (limit : Nat) (f : Feed) (a b : Record),
      (drainWithin codec strictness w limit f a).result =
        (drainWithin codec strictness w limit f b).result ∧
      (drainWithin codec strictness w limit f a).feed =
        (drainWithin codec strictness w limit f b).feed := by
  intro limit
  induction limit with
  | zero => exact fun f a b => ⟨rfl, rfl⟩
  | succ limit ih =>
    intro f a b
    unfold drainWithin
    cases f.held with
    | none => exact ⟨rfl, rfl⟩
    | some row =>
      simp only
      cases verdict strictness w f.path row with
      | refuse e => exact ⟨rfl, rfl⟩
      | wait time => exact ⟨rfl, rfl⟩
      | skip time =>
        simp only
        rcases f.advance with ⟨e | took, next⟩
        · exact ⟨rfl, rfl⟩
        · exact ih next a b
      | take =>
        simp only
        rcases f.advance with ⟨e | took, next⟩
        · exact ⟨rfl, rfl⟩
        · simp only
          cases codec.ofRow f.fileName row with
          | error e => exact ⟨rfl, rfl⟩
          | ok fragment => exact ih next _ _

/-- So neither does what a sweep reads. -/
theorem sweep_apart (codec : Codec) (strictness : Strictness) (w : Int) :
    ∀ (ss : List Source) (a b : Record),
    (sweep codec strictness w ss a).result = (sweep codec strictness w ss b).result ∧
      (sweep codec strictness w ss a).sources = (sweep codec strictness w ss b).sources := by
  intro ss
  induction ss with
  | nil => exact fun a b => ⟨rfl, rfl⟩
  | cons s rest ih =>
    intro a b
    obtain ⟨path, feed⟩ := s
    cases feed with
    | none =>
      obtain ⟨hresult, hsources⟩ := ih a b
      simp only [sweep, hresult, hsources]
      exact ⟨trivial, trivial⟩
    | some f =>
      obtain ⟨hdrained, hfeed⟩ : (drain codec strictness w f a).result =
            (drain codec strictness w f b).result ∧
          (drain codec strictness w f a).feed = (drain codec strictness w f b).feed :=
        drainWithin_apart codec strictness w f.remaining f a b
      cases hresult : (drain codec strictness w f a).result with
      | error e =>
        rw [sweep_of_error hresult, sweep_of_error (hdrained.symm.trans hresult), hfeed]
        exact ⟨rfl, rfl⟩
      | ok waiting =>
        rw [sweep_of_ok hresult, sweep_of_ok (hdrained.symm.trans hresult), hfeed]
        obtain ⟨hresult', hsources⟩ := ih (drain codec strictness w f a).merged
          (drain codec strictness w f b).merged
        exact ⟨hresult', congrArg (List.cons _) hsources⟩

/-! ## §2. One step, with the last files once more. -/

/-- The records that whole files have due are in key order. -/
theorem ordered_dueFrom (hcodec : codec.Ordered) {ss : List Source}
    (hss : ∀ s ∈ ss, ∀ f ∈ s.feed, f.Whole) : ∀ r ∈ dueFrom codec w ss, r.Ordered := by
  intro r hr
  obtain ⟨s, hs, f, hfeed, row, hrow, -, hdecoded⟩ := exists_row_of_mem_dueFrom hr
  exact hcodec (hss s hs f hfeed row hrow).sorted hdecoded

/-- **A sweep over files some of which are there twice**: it fails as the sweep
over each of them once does, or comes to the same union and leaves the second
readings where it leaves the first. -/
theorem sweep_again (hcodec : codec.Ordered) (strictness : Strictness) (w : Int)
    {once twice : List Source} (hwhole : ∀ s ∈ once ++ twice, ∀ f ∈ s.feed, f.Whole) :
    let swept := sweep codec strictness w (once ++ twice) []
    let swept' := sweep codec strictness w (once ++ twice ++ twice) []
    (∃ e, swept.result = .error e ∧ swept'.result = .error e) ∨
    (swept.result = .ok () ∧ swept'.result = .ok () ∧ swept'.merged = swept.merged ∧
      ∃ once' twice', swept.sources = once' ++ twice' ∧
        swept'.sources = once' ++ twice' ++ twice') := by
  intro swept swept'
  cases hresult : swept.result with
  | error e =>
    refine .inl ⟨e, rfl, ?_⟩
    have hagain : swept' = _ := sweep_append_of_error hresult
    rw [hagain]
    exact hresult
  | ok u =>
    have hagain : swept' = _ := sweep_append_of_ok hresult
    -- The files before the last ones were swept, so these were swept as well.
    have hfirst : (sweep codec strictness w once []).result = .ok () := by
      cases h : (sweep codec strictness w once []).result with
      | ok v => rfl
      | error e =>
        have herror : swept = _ := sweep_append_of_error h
        rw [herror] at hresult
        exact absurd (h.symm.trans hresult) nofun
    have hsplit : swept = _ := sweep_append_of_ok hfirst
    have hlater :
        (sweep codec strictness w twice (sweep codec strictness w once []).merged).result =
          .ok () := by
      rw [hsplit] at hresult
      exact hresult
    obtain ⟨hsame, hsources⟩ := sweep_apart codec strictness w twice swept.merged
      (sweep codec strictness w once []).merged
    have hlater' := hsame.trans hlater
    refine .inr ⟨rfl, ?_, ?_, (sweep codec strictness w once []).sources,
      (sweep codec strictness w twice (sweep codec strictness w once []).merged).sources, ?_, ?_⟩
    · rw [hagain]
      exact hlater'
    · -- What the last files add has been united before.
      have honce := merged_sweep hresult
      have htwice := merged_sweep hlater'
      have hdue : dueFrom codec w (once ++ twice) = dueFrom codec w once ++ dueFrom codec w twice :=
        List.flatMap_append
      rw [hdue, List.foldl_append] at honce
      have hordered := ordered_dueFrom (w := w) hcodec hwhole
      rw [hdue] at hordered
      rw [hagain]
      show (sweep codec strictness w twice swept.merged).merged = swept.merged
      rw [htwice, honce]
      exact Record.foldl_union_again
        (Record.ordered_nil.foldl_union fun r hr => hordered r (List.mem_append_left _ hr))
        fun r hr => hordered r (List.mem_append_right _ hr)
    · rw [hsplit]
    · rw [hagain]
      show swept.sources ++ (sweep codec strictness w twice swept.merged).sources = _
      rw [hsources, hsplit]

/-- Two merges side by side: the second one has the last files of the first one
twice. -/
structure Again (m m' : Merge) : Prop where
  sources : ∃ once twice, m.sources = once ++ twice ∧ m'.sources = once ++ twice ++ twice
  phase : m'.phase = m.phase
  strictness : m'.strictness = m.strictness
  whole : m.Whole

/-- The primary file is among the first ones, if there is any. -/
theorem waitingTime_append {as bs : List Source} (h : as = [] → bs = []) :
    waitingTime (as ++ bs) = waitingTime as := by
  rcases as with _ | ⟨⟨path, _ | f⟩, rest⟩
  · rw [h rfl]
    rfl
  · rfl
  · rfl

theorem firstWatermark_append {as bs : List Source} (h : as = [] → bs = []) :
    firstWatermark (as ++ bs) = firstWatermark as := by
  rcases as with _ | ⟨⟨path, _ | f⟩, rest⟩
  · rw [h rfl]
    rfl
  · rfl
  · rfl

/-- **A step of both**: it comes to the same, and if it does not fail they go on
side by side. -/
theorem Again.next (hcodec : codec.Ordered) (h : Again m m') :
    (m'.next codec).result = (m.next codec).result ∧
      ∀ handed, (m.next codec).result = .ok handed →
        Again (m.next codec).state (m'.next codec).state := by
  obtain ⟨once, twice, hsources, hsources'⟩ := h.sources
  have hwhole : (m.next codec).state.Whole := h.whole.next codec
  by_cases hw : ∃ w, m.phase = .connected (some w)
  · obtain ⟨w, hphase⟩ := hw
    have hphase' := h.phase.trans hphase
    have hboth := sweep_again hcodec m.strictness w
      (fun s hs => h.whole s (hsources ▸ hs))
    rw [← hsources', ← hsources] at hboth
    rcases hboth with ⟨e, he, he'⟩ | ⟨hok, hok', hmerged, once', twice', hleft, hleft'⟩
    · have hfails := next_of_sweep_error hphase he
      refine ⟨(next_of_sweep_error hphase' (h.strictness ▸ he')).trans hfails.symm, ?_⟩
      intro handed hhanded
      rw [hfails] at hhanded
      cases hhanded
    · obtain ⟨hresult, hstate⟩ := next_of_sweep_ok hphase hok
      obtain ⟨hresult', hstate'⟩ := next_of_sweep_ok hphase' (h.strictness.symm ▸ hok')
      rw [h.strictness, hmerged] at hresult' hstate'
      refine ⟨hresult'.trans hresult.symm, ?_⟩
      intro handed _
      refine ⟨⟨once', twice', ?_, ?_⟩, ?_, ?_, hwhole⟩
      · rw [hstate, hleft]
      · rw [hstate', hleft']
      · -- The same row of the primary file waits in both.
        rw [hstate, hstate', hleft, hleft', waitingTime_append]
        exact fun hnil => (List.append_eq_nil_iff.1 hnil).2
      · rw [hstate, hstate']
  · have hidle : ∀ w, m.phase ≠ .connected (some w) := not_exists.1 hw
    have hidle' : ∀ w, m'.phase ≠ .connected (some w) := h.phase.symm ▸ hidle
    obtain ⟨hresult, hstate, hstrictness, -⟩ := next_idle codec hidle
    obtain ⟨hresult', hstate', hstrictness', -⟩ := next_idle codec hidle'
    refine ⟨hresult'.trans hresult.symm, fun handed _ => ⟨⟨once, twice, ?_, ?_⟩, ?_, ?_, hwhole⟩⟩
    · rw [hstate, hsources]
    · rw [hstate', hsources']
    · rw [phase_next_idle codec hidle, phase_next_idle codec hidle', h.phase]
    · rw [hstrictness, hstrictness', h.strictness]

/-! ## §3. Connecting, with the last files once more. -/

/-- Of files that are all opened the last ones are. -/
theorem openAll_twice {once twice : List String} (h : (openAll t (once ++ twice)).result = .ok ()) :
    (openAll t twice).result = .ok () ∧
      (openAll t (once ++ twice)).state = (openAll t once).state ++ (openAll t twice).state := by
  cases honce : (openAll t once).result with
  | error e =>
    rw [openAll_append_of_error honce, honce] at h
    cases h
  | ok u =>
    rw [openAll_append_of_ok honce] at h ⊢
    exact ⟨h, rfl⟩

/-- **Connecting both**: they succeed or fail alike, and if they succeed they go
on side by side. -/
theorem connect_again {once twice : List String} (t : FileTree) (hpaths : m.paths = once ++ twice)
    (hpaths' : m'.paths = once ++ twice ++ twice) (hstrictness : m'.strictness = m.strictness) :
    (m'.connect t).result = (m.connect t).result ∧
      ((m.connect t).result = .ok () → Again (m.connect t).state (m'.connect t).state) := by
  have hwhole : (m.connect t).result = .ok () → (m.connect t).state.Whole := by
    intro hok
    rcases connect_cases t m with ⟨e, -, he, -⟩ | ⟨e, -, -, he, -⟩ | ⟨w, -, -, -, hs⟩
    · rw [hok] at he; cases he
    · rw [hok] at he; cases he
    · rw [hs]
      exact whole_openAll
  cases hopen : (openAll t (once ++ twice)).result with
  | error e =>
    -- The second readings are not come to.
    have hopen' : (openAll t m'.paths).result = .error e := by
      rw [hpaths', openAll_append_of_error hopen, hopen]
    obtain ⟨hfails, -⟩ := connect_of_unopened (m := m) (hpaths ▸ hopen)
    refine ⟨(connect_of_unopened hopen').1.trans hfails.symm, ?_⟩
    intro hok
    rw [hfails] at hok
    cases hok
  | ok u =>
    obtain ⟨htwice, hstate⟩ := openAll_twice hopen
    have hopen' : (openAll t m'.paths).result = .ok () := by
      rw [hpaths', openAll_append_of_ok hopen, htwice]
    have hstate' : (openAll t m'.paths).state =
        (openAll t once).state ++ (openAll t twice).state ++ (openAll t twice).state := by
      rw [hpaths', openAll_append_of_ok hopen, hstate]
    rw [← hpaths] at hopen hstate
    have hfirst : firstWatermark (openAll t m'.paths).state =
        firstWatermark (openAll t m.paths).state := by
      rw [hstate, hstate', firstWatermark_append]
      exact fun hnil => (List.append_eq_nil_iff.1 hnil).2
    cases hw : firstWatermark (openAll t m.paths).state with
    | error e =>
      obtain ⟨hfails, -⟩ := connect_of_untimed hopen hw
      refine ⟨(connect_of_untimed hopen' (hfirst.trans hw)).1.trans hfails.symm, ?_⟩
      intro hok
      rw [hfails] at hok
      cases hok
    | ok watermark =>
      obtain ⟨hresult, hleft⟩ := connect_of_timed hopen hw
      obtain ⟨hresult', hleft'⟩ := connect_of_timed hopen' (hfirst.trans hw)
      refine ⟨hresult'.trans hresult.symm, ?_⟩
      intro hok
      refine ⟨⟨(openAll t once).state, (openAll t twice).state, ?_, ?_⟩, ?_, ?_, hwhole hok⟩
      · rw [hleft]
        exact hstate
      · rw [hleft']
        exact hstate'
      · rw [hleft, hleft']
      · rw [hleft, hleft']
        exact hstrictness

end ReportStore.Merge
