/-
  ReportStore.Proofs.Merge.Accounting
  ───────────────────────────────────
  **EVERY ROW THAT IS TAKEN IS COUNTED.**

  A row leaves its file before the codec is asked about it, and is counted
  after that, so the files and the counters could part at every fault between
  the two.  An account relates what the files say to what was reported,

      taken before + (rows read + rows skipped) = taken after
      records merged = records handed out ≤ rows read,

  and of two accounts, one after the other, comes one.  With a codec that
  takes every row in time each pass has an account, whatever it comes to, and
  so has each step.
-/
import ReportStore.Proofs.Merge.Ending
import ReportStore.Proofs.Merge.Files
import ReportStore.Proofs.Saving.Tallies

namespace ReportStore

/-! ## §1. Accounts. -/

/-- The files that are open, as they stand. -/
def openFeeds (ss : List Source) : List Feed := ss.filterMap (·.feed)

/-- How many rows were taken from some files. -/
def rowsTaken (fs : List Feed) : Nat := fs.foldr (fun f n => f.taken + n) 0

/-- **An account**: rows were taken, records handed out, and some signals
report both. -/
structure Accounted (before after records : Nat) (signals : List Signal) : Prop where
  rows : before + (signals.count (.count .rowsRead) + signals.count (.count .rowsSkipped)) = after
  merged : signals.count (.count .recordsMerged) = records
  /-- A record is made of a row. -/
  read : records ≤ signals.count (.count .rowsRead)

/-- Whether a codec takes every row whose time can be read. -/
def Codec.TakesTimed (codec : Codec) : Prop :=
  ∀ fileName row time, row.time? = some time → ∃ r, codec.ofRow fileName row = .ok r

theorem Codec.takesTimed {codec : Codec} (h : codec ∈ [Codec.power, Codec.counters]) :
    codec.TakesTimed := by
  intro fileName row time htime
  simp only [List.mem_cons, List.not_mem_nil, or_false] at h
  rcases h with rfl | rfl
  · obtain ⟨r, hr, -⟩ := Codec.decodes_power htime fileName
    exact ⟨r, hr⟩
  · obtain ⟨r, hr, -⟩ := Codec.decodes_counters htime fileName
    exact ⟨r, hr⟩

namespace Accounted

variable {n n' n'' records records' : Nat} {signals signals' : List Signal}

/-- Signals that count nothing are the account of nothing. -/
theorem of_uncounted (h : ∀ c, signals.count (.count c) = 0) : Accounted n n 0 signals :=
  ⟨by rw [h, h]; rfl, h _, Nat.zero_le _⟩

/-- **Two accounts, one after the other.** -/
theorem trans (h : Accounted n n' records signals) (h' : Accounted n' n'' records' signals') :
    Accounted n n'' (records + records') (signals ++ signals') := by
  have hrows := h.rows
  have hrows' := h'.rows
  have hread := h.read
  have hread' := h'.read
  refine ⟨?_, ?_, ?_⟩
  · rw [List.count_append, List.count_append]
    omega
  · rw [List.count_append, h.merged, h'.merged]
  · rw [List.count_append]
    omega

/-- Files from which nothing is taken change no account. -/
theorem frame (h : Accounted n n' records signals) (others : Nat) :
    Accounted (n + others) (n' + others) records signals := by
  have hrows := h.rows
  exact ⟨by omega, h.merged, h.read⟩

end Accounted

theorem rowsTaken_append (fs gs : List Feed) :
    rowsTaken (fs ++ gs) = rowsTaken fs + rowsTaken gs := by
  induction fs with
  | nil => exact (Nat.zero_add _).symm
  | cons f rest ih =>
    show f.taken + rowsTaken (rest ++ gs) = f.taken + rowsTaken rest + rowsTaken gs
    rw [ih, Nat.add_assoc]

/-- Files that no row was taken from. -/
theorem rowsTaken_eq_zero {fs : List Feed} (h : ∀ f ∈ fs, f.taken = 0) : rowsTaken fs = 0 := by
  induction fs with
  | nil => rfl
  | cons f rest ih =>
    obtain ⟨hf, hrest⟩ := List.forall_mem_cons.1 h
    show f.taken + rowsTaken rest = 0
    rw [hf, ih hrest]

theorem rowsTaken_open (path : String) (f : Feed) (rest : List Source) :
    rowsTaken (openFeeds (⟨path, some f⟩ :: rest)) = f.taken + rowsTaken (openFeeds rest) :=
  rfl

namespace Merge

variable {codec : Codec} {strictness : Strictness} {w : Int}

/-! ## §2. Passes. -/

theorem count_skippedSignals (path : String) (t w : Int) (c : Counter) :
    (skippedSignals path t w).count (.count c) = if c = .rowsSkipped then 1 else 0 := by
  unfold skippedSignals Event.signal
  cases c <;> rfl

/-- One row is taken and skipped. -/
theorem accounted_skipped (n : Nat) (path : String) (t w : Int) :
    Accounted n (n + 1) 0 (skippedSignals path t w) :=
  ⟨by rw [count_skippedSignals, count_skippedSignals]; rfl, count_skippedSignals ..,
    Nat.zero_le _⟩

/-- One row is taken and read. -/
theorem accounted_read (n : Nat) : Accounted n (n + 1) 0 [.count .rowsRead] :=
  ⟨rfl, rfl, Nat.zero_le _⟩

/-- **Every pass has an account**, whatever it comes to. -/
theorem Draining.accounted (hcodec : codec.TakesTimed) {f : Feed} {merged : Record} {d : Drained}
    (h : Draining codec strictness w f merged d) : Accounted f.taken d.feed.taken 0 d.signals := by
  induction h with
  | exhausted | unreadable | waiting | late => exact .of_uncounted fun _ => rfl
  | malformed _ _ _ advance =>
    rw [Feed.taken_of_advance_error advance]
    exact .of_uncounted fun _ => rfl
  | skipped held _ _ _ advance _ ih =>
    rw [Feed.taken_of_advance_ok held advance] at ih
    exact (accounted_skipped _ _ _ _).trans ih
  | @refused f _ _ row _ _ _ time _ decoded =>
    -- Only here a row would be lost between the file and the counters.
    obtain ⟨r, hr⟩ := hcodec f.fileName row _ time
    rw [hr] at decoded
    cases decoded
  | united held _ advance _ _ ih =>
    rw [Feed.taken_of_advance_ok held advance] at ih
    exact (accounted_read _).trans ih

/-- A pass that changes the union has read a row. -/
theorem Draining.merged_eq_or_read {f : Feed} {merged : Record} {d : Drained}
    (h : Draining codec strictness w f merged d) :
    d.merged = merged ∨ 0 < d.signals.count (.count .rowsRead) := by
  induction h with
  | exhausted | unreadable | waiting | late | malformed | refused => exact .inl rfl
  | skipped _ _ _ _ _ _ ih =>
    refine ih.imp_right fun hread => ?_
    show 0 < (skippedSignals _ _ _ ++ _).count _
    rw [List.count_append]
    exact Nat.add_pos_right _ hread
  | united =>
    refine .inr ?_
    show 0 < ([Signal.count .rowsRead] ++ _).count _
    rw [List.count_append]
    exact Nat.add_pos_left Nat.one_pos _

/-- **Every sweep has an account**: the files after a fault are as they were. -/
theorem sweep_accounted (hcodec : codec.TakesTimed) : ∀ (ss : List Source) (merged : Record),
    Accounted (rowsTaken (openFeeds ss))
      (rowsTaken (openFeeds (sweep codec strictness w ss merged).sources)) 0
      (sweep codec strictness w ss merged).signals := by
  intro ss
  induction ss with
  | nil => exact fun _ => .of_uncounted fun _ => rfl
  | cons s rest ih =>
    intro merged
    obtain ⟨path, feed⟩ := s
    cases feed with
    | none => exact ih merged
    | some f =>
      have hpass := (drain_draining codec strictness w f merged).accounted hcodec
      cases hresult : (drain codec strictness w f merged).result with
      | error e =>
        rw [sweep_of_error hresult, rowsTaken_open, rowsTaken_open]
        exact hpass.frame _
      | ok waiting =>
        -- This pass takes from one file, what follows from the others.
        have hlater := (ih (drain codec strictness w f merged).merged).frame
          (drain codec strictness w f merged).feed.taken
        rw [Nat.add_comm, Nat.add_comm (rowsTaken _)] at hlater
        rw [sweep_of_ok hresult, rowsTaken_open, rowsTaken_open]
        exact (hpass.frame _).trans hlater

theorem sweep_merged_eq_or_read : ∀ (ss : List Source) (merged : Record),
    (sweep codec strictness w ss merged).merged = merged ∨
      0 < (sweep codec strictness w ss merged).signals.count (.count .rowsRead) := by
  intro ss
  induction ss with
  | nil => exact fun _ => .inl rfl
  | cons s rest ih =>
    intro merged
    obtain ⟨path, feed⟩ := s
    cases feed with
    | none => exact ih merged
    | some f =>
      have hpass := (drain_draining codec strictness w f merged).merged_eq_or_read
      cases hresult : (drain codec strictness w f merged).result with
      | error e =>
        rw [sweep_of_error hresult]
        exact hpass
      | ok waiting =>
        rw [sweep_of_ok hresult]
        simp only [List.count_append]
        rcases hpass with hsame | hread
        · refine (ih _).imp (fun hlater => hlater.trans hsame) ?_
          exact fun hlater => Nat.add_pos_right _ hlater
        · exact .inr (Nat.add_pos_left hread _)

/-! ## §3. Steps. -/

/-- The records that a request for one hands out. -/
def handedOut : Except Fault (Option Record) → List Record
  | .ok (some r) => [r]
  | _ => []

/-- **What a step counts**: what its sweep counts, and the record handed out. -/
theorem count_next {m : Merge} (codec : Codec) (hphase : m.phase = .connected (some w))
    (c : Counter) :
    (m.next codec).signals.count (.count c) =
      (sweep codec m.strictness w m.sources []).signals.count (.count c) +
        if c = .recordsMerged then (handedOut (m.next codec).result).length else 0 := by
  simp only [next, hphase]
  generalize sweep codec m.strictness w m.sources [] = swept
  cases swept.result with
  | error e => simp [handedOut]
  | ok u =>
    cases swept.merged.isEmpty with
    | true => simp [finish, handedOut, Event.signal]
    | false => cases c <;> simp [handedOut, Event.signal]

theorem count_next_idle {m : Merge} (codec : Codec) (h : ∀ w, m.phase ≠ .connected (some w))
    (c : Counter) : (m.next codec).signals.count (.count c) = 0 := by
  unfold next
  cases hphase : m.phase with
  | unconnected | ended => rfl
  | connected watermark =>
    cases watermark with
    | none => rfl
    | some w => exact absurd hphase (h w)

/-- **Every step has an account**, in either mode and whatever it comes to. -/
theorem next_accounted (hcodec : codec.TakesTimed) (m : Merge) :
    Accounted (rowsTaken (openFeeds m.sources))
      (rowsTaken (openFeeds (m.next codec).state.sources))
      (handedOut (m.next codec).result).length (m.next codec).signals := by
  by_cases hw : ∃ w, m.phase = .connected (some w)
  · obtain ⟨w, hphase⟩ := hw
    have hsweep : Accounted _ _ 0 (sweep codec m.strictness w m.sources []).signals :=
      sweep_accounted hcodec m.sources []
    -- Beside what its sweep counts a step counts only the record.
    refine ⟨?_, ?_, ?_⟩
    · rw [count_next codec hphase, count_next codec hphase, (sources_next codec hphase).1]
      exact hsweep.rows
    · rw [count_next codec hphase, hsweep.merged, if_pos rfl, Nat.zero_add]
    · rw [count_next codec hphase]
      show _ ≤ List.count _ _ + 0
      rcases next_cases codec hphase with ⟨e, -, hres, -⟩ | ⟨-, -, hres, -⟩ | ⟨-, hne, hres, -⟩
      · rw [hres]
        exact Nat.zero_le _
      · rw [hres]
        exact Nat.zero_le _
      · -- A record that is handed out is not the empty one that the sweep began with.
        rw [hres]
        exact (sweep_merged_eq_or_read m.sources []).resolve_left hne
  · have hidle := not_exists.1 hw
    rw [(next_idle codec hidle).1, (next_idle codec hidle).2.1]
    exact .of_uncounted (count_next_idle codec hidle)

/-! ## §4. Connecting. -/

variable {t : FileTree}

/-- No row of a file is taken when it is opened. -/
theorem taken_of_openAt {path : String} {f : Feed} (h : Feed.openAt t path = .ok f) :
    f.taken = 0 := by
  unfold Feed.openAt at h
  cases hopen : t.openAt path with
  | error cause => simp only [hopen, reduceCtorEq] at h
  | ok node =>
    cases hcontents : FileTree.contents node with
    | error cause => simp only [hopen, hcontents, reduceCtorEq] at h
    | ok bytes =>
      simp only [hopen, hcontents] at h
      rcases Feed.ofBytes_cases path bytes with ⟨g, names, hg, hopened⟩ | ⟨cause, hg, -⟩
      · rw [hg] at h
        injection h with h
        exact h ▸ hopened.taken
      · rw [hg] at h
        cases h

theorem taken_of_openSource {path : String} {f : Feed} (h : openSource t path = .ok f) :
    f.taken = 0 := by
  obtain ⟨bytes, names, -, hopened⟩ := openedOn_of_openSource h
  exact hopened.taken

theorem taken_of_openAll : ∀ {paths : List String},
    ∀ f ∈ openFeeds (openAll t paths).state, f.taken = 0 := by
  intro paths
  induction paths with
  | nil => exact List.forall_mem_nil _
  | cons path rest ih =>
    unfold openAll
    cases hf : openSource t path with
    | error e => exact List.forall_mem_nil _
    | ok f => exact List.forall_mem_cons.2 ⟨taken_of_openSource hf, ih⟩

theorem count_openAll (c : Counter) : ∀ paths : List String,
    (openAll t paths).signals.count (.count c) = 0 := by
  intro paths
  induction paths with
  | nil => rfl
  | cons path rest ih =>
    unfold openAll
    cases openSource t path with
    | error e => rfl
    | ok f =>
      show (openedSignal path f :: (openAll t rest).signals).count _ = 0
      rw [List.count_cons, ih]
      rfl

theorem count_connect (m : Merge) (c : Counter) :
    (m.connect t).signals.count (.count c) = 0 := by
  have hopened := count_openAll (t := t) c m.paths
  unfold connect
  simp only
  cases (openAll t m.paths).result with
  | error e => simp [hopened, Event.signal]
  | ok u =>
    cases firstWatermark (openAll t m.paths).state with
    | error e => simp [hopened, Event.signal]
    | ok w => simp [hopened, Event.signal]

/-- A merge that was disconnected has no file open. -/
theorem openFeeds_disconnect (m : Merge) : openFeeds m.disconnect.sources = [] := by
  unfold openFeeds
  rw [List.filterMap_eq_nil_iff]
  intro s hs
  obtain ⟨s', -, rfl⟩ := List.mem_map.1 hs
  rfl

/-- What connecting leaves open was not read from. -/
theorem rowsTaken_connect (t : FileTree) (m : Merge) :
    rowsTaken (openFeeds (m.connect t).state.sources) = 0 := by
  rcases connect_cases t m with ⟨e, -, -, hs⟩ | ⟨e, -, -, -, hs⟩ | ⟨w, -, -, -, hs⟩
  · rw [hs, openFeeds_disconnect]
    rfl
  · rw [hs, openFeeds_disconnect]
    rfl
  · rw [hs]
    exact rowsTaken_eq_zero taken_of_openAll

end Merge

end ReportStore
