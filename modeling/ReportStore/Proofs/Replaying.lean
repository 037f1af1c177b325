/-
  ReportStore.Proofs.Replaying
  ────────────────────────────
  **A STORE THAT IS REPLAYED AGAIN.**

  A replay registers some more files, connects, and pulls records until none
  is left or a step fails.  The bound on the pulls is never met: each record
  takes a record of a file.  So a replay is the run of its merge, and of two
  merges that go on side by side the runs are the same:

      replay with some more files, then again  =  the same records, the same fault

  The second time the files are registered twice.
-/
import ReportStore.Proofs.Merge.Again
import ReportStore.Program

namespace ReportStore

/-! ## §1. A run is long enough. -/

/-- How many records of the open files were not looked at yet. -/
def recordsLeft (ss : List Source) : Nat :=
  ss.foldr (fun s n => (s.feed.map Feed.remaining).getD 0 + n) 0

theorem Store.remaining_eq (s : Store) : s.remaining = recordsLeft s.merge.sources := rfl

namespace Merge

variable {codec : Codec} {strictness : Strictness} {w : Int}

/-- A sweep that unites something looks at a record of some file. -/
theorem recordsLeft_sweep : ∀ {ss : List Source} {merged : Record},
    recordsLeft (sweep codec strictness w ss merged).sources ≤ recordsLeft ss ∧
      ((sweep codec strictness w ss merged).merged = merged ∨
        recordsLeft (sweep codec strictness w ss merged).sources < recordsLeft ss) := by
  intro ss
  induction ss with
  | nil => exact fun {merged} => ⟨Nat.le_refl _, .inl rfl⟩
  | cons s rest ih =>
    intro merged
    obtain ⟨path, feed⟩ := s
    have hcons : ∀ (feed : Option Feed) (ss : List Source), recordsLeft (⟨path, feed⟩ :: ss) =
        (feed.map Feed.remaining).getD 0 + recordsLeft ss := fun _ _ => rfl
    cases feed with
    | none =>
      rw [sweep, hcons, hcons]
      simpa using ih
    | some f =>
      obtain ⟨hle, hmerged⟩ := (drain_draining codec strictness w f merged).remaining_le
      cases hresult : (drain codec strictness w f merged).result with
      | error e =>
        rw [sweep_of_error hresult, hcons, hcons]
        simp only [Option.map_some, Option.getD_some]
        exact ⟨by omega, hmerged.imp_right fun hlt => by omega⟩
      | ok waiting =>
        obtain ⟨hle', hmerged'⟩ := @ih (drain codec strictness w f merged).merged
        rw [sweep_of_ok hresult, hcons, hcons]
        simp only [Option.map_some, Option.getD_some]
        refine ⟨by omega, ?_⟩
        rcases hmerged with hmerged | hlt
        · exact hmerged'.imp (fun h => h.trans hmerged) fun hlt => by omega
        · exact .inr (by omega)

/-- **Each record that is handed out takes a record of a file.** -/
theorem recordsLeft_next {m : Merge} {r : Record} (h : (m.next codec).result = .ok (some r)) :
    recordsLeft (m.next codec).state.sources < recordsLeft m.sources := by
  by_cases hw : ∃ w, m.phase = .connected (some w)
  · obtain ⟨w, hphase⟩ := hw
    rcases next_cases codec hphase with ⟨e, -, hres, -⟩ | ⟨-, -, hres, -⟩ | ⟨-, hne, -, hstate⟩
    · rw [hres] at h; cases h
    · rw [hres] at h; cases h
    · rw [hstate]
      exact recordsLeft_sweep.2.resolve_left hne
  · rw [(next_idle codec (not_exists.1 hw)).1] at h
    cases h

end Merge

namespace Store

/-- A run that nothing has ended. -/
def Run.going : Run := ⟨none, false⟩

/-- Starting a run goes on where the store stands, or the store connects first
and a fault of that waits in the run. -/
theorem startRun_cases (t : FileTree) (s : Store) :
    (s.merge.isConnected = true ∧ s.startRun t = .of .going s []) ∨
    (s.merge.isConnected = false ∧ (s.connect t).result = .ok () ∧
      s.startRun t = .of .going (s.connect t).state (s.connect t).signals) ∨
    ∃ e, s.merge.isConnected = false ∧ (s.connect t).result = .error e ∧
      s.startRun t = .of ⟨some e, false⟩ (s.connect t).state (s.connect t).signals := by
  unfold startRun
  cases hconnected : s.merge.isConnected with
  | true => exact .inl ⟨rfl, rfl⟩
  | false =>
    simp only [Bool.false_eq_true, if_false]
    cases hresult : (s.connect t).result with
    | ok u => exact .inr (.inl ⟨trivial, rfl, rfl⟩)
    | error e => exact .inr (.inr ⟨e, trivial, rfl, rfl⟩)

variable {s s' : Store}

/-- The next pull of such a run, and what comes after it. -/
theorem drainWithin_succ (limit : Nat) (s : Store) :
    s.drainWithin (limit + 1) .going =
      match s.next.result with
      | .ok none => ⟨[], none, s.next.state, s.next.signals⟩
      | .error e => ⟨[], some e, s.next.state, s.next.signals⟩
      | .ok (some r) =>
        let later := s.next.state.drainWithin limit .going
        { later with
          records := r :: later.records
          signals := s.next.signals ++ later.signals } := by
  rw [drainWithin]
  unfold pull Run.going
  simp only
  cases s.next.result with
  | error e => rfl
  | ok handed => cases handed <;> rfl

/-- A record that is handed out leaves less behind. -/
theorem remaining_next_lt {r : Record} (h : s.next.result = .ok (some r)) :
    s.next.state.remaining < s.remaining := by
  rw [remaining_eq, remaining_eq]
  exact Merge.recordsLeft_next h

/-- **The bound of a run is never met**: past what is left in the files it makes
no difference. -/
theorem drainWithin_eq : ∀ (limit limit' : Nat) {s : Store}, s.remaining < limit →
    s.remaining < limit' → s.drainWithin limit .going = s.drainWithin limit' .going := by
  intro limit
  induction limit with
  | zero => exact fun _ {s} h => nomatch h
  | succ limit ih =>
    intro limit' s h h'
    obtain ⟨limit', rfl⟩ := Nat.exists_eq_succ_of_ne_zero (Nat.ne_of_gt (Nat.zero_lt_of_lt h'))
    rw [drainWithin_succ, drainWithin_succ]
    cases hresult : s.next.result with
    | error e => rfl
    | ok handed =>
      cases handed with
      | none => rfl
      | some r =>
        have hless := remaining_next_lt hresult
        rw [ih limit' (by omega) (by omega)]

theorem drain_eq {limit : Nat} (h : s.remaining < limit) :
    s.drain .going = s.drainWithin limit .going :=
  drainWithin_eq _ _ (by omega) h

/-! ## §2. What a replay leaves as it was. -/

/-- What decides a replay: where the store stands, how it translates, which files
it has, and how strict it is. -/
structure Alike (s s' : Store) : Prop where
  base : s'.base = s.base
  codec : s'.codec = s.codec
  paths : s'.merge.paths = s.merge.paths
  strictness : s'.merge.strictness = s.merge.strictness

theorem Alike.refl (s : Store) : Alike s s := ⟨rfl, rfl, rfl, rfl⟩

theorem Alike.trans {s s' s'' : Store} (h : Alike s s') (h' : Alike s' s'') : Alike s s'' :=
  ⟨h'.base.trans h.base, h'.codec.trans h.codec, h'.paths.trans h.paths,
    h'.strictness.trans h.strictness⟩

theorem alike_next (s : Store) : Alike s s.next.state :=
  ⟨rfl, rfl, Merge.paths_next s.codec s.merge, Merge.strictness_next s.codec s.merge⟩

theorem alike_connect (t : FileTree) (s : Store) : Alike s (s.connect t).state :=
  ⟨rfl, rfl, Merge.paths_connect t s.merge, Merge.strictness_connect t s.merge⟩

theorem alike_drainWithin : ∀ (limit : Nat) (s : Store),
    Alike s (s.drainWithin limit .going).store := by
  intro limit
  induction limit with
  | zero => exact fun s => .refl s
  | succ limit ih =>
    intro s
    have hnext := alike_next s
    rw [drainWithin_succ]
    cases s.next.result with
    | error e => exact hnext
    | ok handed =>
      cases handed with
      | none => exact hnext
      | some r => exact hnext.trans (ih s.next.state)

/-- Files are registered behind those that are. -/
theorem addFiles_eq : ∀ (paths : List String) (s : Store),
    (s.addFiles paths).base = s.base ∧ (s.addFiles paths).codec = s.codec ∧
      (s.addFiles paths).merge.strictness = s.merge.strictness ∧
      (s.addFiles paths).merge.paths = s.merge.paths ++ paths.map s.resolve := by
  intro paths
  induction paths with
  | nil => exact fun s => ⟨rfl, rfl, rfl, (List.append_nil _).symm⟩
  | cons path rest ih =>
    intro s
    obtain ⟨hbase, hcodec, hstrictness, hpaths⟩ := ih (s.addFile path)
    refine ⟨hbase, hcodec, hstrictness, ?_⟩
    show ((s.addFile path).addFiles rest).merge.paths = _
    have hadded : (s.addFile path).merge.paths = s.merge.paths ++ [s.resolve path] := by
      exact List.map_append
    rw [hpaths, hadded, List.append_assoc]
    rfl

/-- A replay that cannot connect comes to nothing. -/
theorem replay_of_error {t : FileTree} {more : List String} {e : Fault}
    (h : ((s.addFiles more).connect t).result = .error e) :
    (s.replay t more).records = [] ∧ (s.replay t more).fault = some e ∧
      (s.replay t more).store = ((s.addFiles more).connect t).state := by
  simp only [replay, h]
  exact ⟨trivial, trivial, trivial⟩

/-- A replay that connects is the run of the store that is connected. -/
theorem replay_of_ok {t : FileTree} {more : List String}
    (h : ((s.addFiles more).connect t).result = .ok ()) :
    let run := ((s.addFiles more).connect t).state.drain .going
    (s.replay t more).records = run.records ∧ (s.replay t more).fault = run.fault ∧
      (s.replay t more).store = run.store := by
  simp only [replay, h]
  exact ⟨rfl, rfl, rfl⟩

/-- A replay leaves its files registered. -/
theorem alike_replay (t : FileTree) (s : Store) (more : List String) :
    Alike (s.addFiles more) (s.replay t more).store := by
  have hconnect := alike_connect t (s.addFiles more)
  cases h : ((s.addFiles more).connect t).result with
  | error e =>
    rw [(replay_of_error h).2.2]
    exact hconnect
  | ok u =>
    rw [(replay_of_ok h).2.2]
    exact hconnect.trans (alike_drainWithin _ _)

/-! ## §3. Two replays. -/

/-- **The runs of two stores side by side** are the same. -/
theorem drainWithin_again (hcodec : s.codec.Ordered) : ∀ (limit : Nat) (s' : Store),
    s'.codec = s.codec → Merge.Again s.merge s'.merge →
      (s'.drainWithin limit .going).records = (s.drainWithin limit .going).records ∧
      (s'.drainWithin limit .going).fault = (s.drainWithin limit .going).fault := by
  intro limit
  induction limit generalizing s with
  | zero => exact fun _ _ _ => ⟨rfl, rfl⟩
  | succ limit ih =>
    intro s' hsame hagain
    obtain ⟨hresult, hstates⟩ := hagain.next hcodec
    have hnext : s'.next.result = s.next.result := by
      show (s'.merge.next s'.codec).result = _
      rw [hsame, hresult]
      rfl
    rw [drainWithin_succ, drainWithin_succ, hnext]
    cases hhanded : s.next.result with
    | error e => exact ⟨rfl, rfl⟩
    | ok handed =>
      cases handed with
      | none => exact ⟨rfl, rfl⟩
      | some r =>
        have hlater : Merge.Again s.next.state.merge s'.next.state.merge := by
          show Merge.Again (s.merge.next s.codec).state (s'.merge.next s'.codec).state
          rw [hsame]
          exact hstates _ hhanded
        obtain ⟨hrecords, hfault⟩ := ih (s := s.next.state) hcodec s'.next.state hsame hlater
        exact ⟨congrArg (r :: ·) hrecords, hfault⟩

/-- **A store can be replayed again.**  Whatever files a store has registered,
in either mode, with any codec whose fragments are records in key order: a
second replay with the same more files, which are registered a second time by
it, comes to the same records as the first one, and to the same fault or to
none.  So it writes the same lines and counts as many. -/
theorem replay_twice (t : FileTree) (s : Store) (more : List String)
    (hcodec : s.codec.Ordered) :
    let first := s.replay t more
    let second := first.store.replay t more
    second.records = first.records ∧ second.fault = first.fault := by
  intro first second
  have hfirst : Alike (s.addFiles more) first.store := alike_replay t s more
  obtain ⟨hbase, hsame, hstrictness, hpaths⟩ := addFiles_eq more s
  obtain ⟨-, hsame', hstrictness', hpaths'⟩ := addFiles_eq more first.store
  rw [hfirst.codec, hsame] at hsame'
  have hresolve : first.store.resolve = s.resolve := by
    unfold resolve
    rw [hfirst.base, hbase]
  rw [hresolve, hfirst.paths, hpaths] at hpaths'
  rw [hfirst.strictness] at hstrictness'
  -- The second time the files stand behind themselves.
  obtain ⟨hresult, hconnected⟩ := Merge.connect_again t hpaths hpaths' hstrictness'
  have hresult' : ((first.store.addFiles more).connect t).result =
      ((s.addFiles more).connect t).result := hresult
  cases h : ((s.addFiles more).connect t).result with
  | error e =>
    obtain ⟨hrecords, hfault, -⟩ := replay_of_error h
    obtain ⟨hrecords', hfault', -⟩ := replay_of_error (hresult'.trans h)
    exact ⟨hrecords'.trans hrecords.symm, hfault'.trans hfault.symm⟩
  | ok u =>
    obtain ⟨hrecords, hfault, -⟩ := replay_of_ok h
    obtain ⟨hrecords', hfault', -⟩ := replay_of_ok (hresult'.trans h)
    have hagain : Merge.Again ((s.addFiles more).connect t).state.merge
        ((first.store.addFiles more).connect t).state.merge := hconnected h
    generalize hone : ((s.addFiles more).connect t).state = one at hrecords hfault hagain
    generalize htwo : ((first.store.addFiles more).connect t).state = two
      at hrecords' hfault' hagain
    have hone' : one.codec = s.codec := by
      rw [← hone]
      exact hsame
    have htwo' : two.codec = one.codec := by
      rw [hone', ← htwo]
      exact hsame'
    obtain ⟨hruns, hfaults⟩ := drainWithin_again (s := one) (hone'.symm ▸ hcodec)
      (max one.remaining two.remaining + 1) two htwo' hagain
    rw [← drain_eq (by omega), ← drain_eq (by omega)] at hruns hfaults
    exact ⟨hrecords'.trans (hruns.trans hrecords.symm), hfault'.trans (hfaults.trans hfault.symm)⟩

/-- A file of two times, and one that is at odds with it and with itself. -/
def atOdds : FileTree :=
  ⟨[(["p.csv"], .file (Text.encode
      "timestamp,sensor,target,socket,cpu,x\n1,s,t,0,0,1\n2,s,t,0,0,5\n")),
    (["a.csv"], .file (Text.encode
      "timestamp,sensor,target,socket,cpu,x\n1,s,t,0,0,2\n1,s,t,0,0,3\n"))]⟩

/-- The last word is the same after the second reading. -/
theorem replay_twice_atOdds :
    let s : Store := (⟨"", .power, Merge.new .lenient, .zero⟩ : Store).addFile "p.csv"
    let first := s.replay atOdds ["a.csv"]
    let second := first.store.replay atOdds ["a.csv"]
    first.store.files = ["p.csv", "a.csv"] ∧ second.store.files = ["p.csv", "a.csv", "a.csv"] ∧
    first.records.map (Dict.get? · "x") = [some (.int 3), some (.int 5)] ∧
    second.records = first.records ∧ second.fault = first.fault := by
  intro s first second
  refine ⟨by decide +kernel, by decide +kernel, by decide +kernel, ?_⟩
  exact replay_twice atOdds s ["a.csv"] (Codec.ordered List.mem_cons_self)

end Store

end ReportStore
