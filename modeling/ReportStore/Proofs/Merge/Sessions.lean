/-
  ReportStore.Proofs.Merge.Sessions
  ─────────────────────────────────
  **A CONNECTION FORGETS WHAT WAS BEFORE IT.**

  Connecting opens every registered file anew, so of what was asked before it
  nothing counts but which paths are registered:

      same paths, same strictness   →   same connection

  A file that is registered later is not open.  Each step passes it over and
  keeps it behind the others, so requests to register one can be erased from
  what is read:

      results qs  =  results (the requests of qs for a record)
-/
import ReportStore.Proofs.Merge.Connecting
import ReportStore.Proofs.Merge.Recovery

namespace ReportStore.Merge

variable {m m₁ m₂ : Merge}

/-! ## §1. What was before. -/

/-- Files that are registered and not open. -/
def unopened (paths : List String) : List Source := paths.map fun path => ⟨path, none⟩

/-- A merge with every file closed has its paths, and that is all. -/
theorem disconnect_eq (m : Merge) :
    m.disconnect = ⟨unopened m.paths, .unconnected, m.strictness⟩ := by
  unfold disconnect unopened paths
  rw [List.map_map]
  rfl

/-- **Connecting depends on the registered paths alone**, whatever is open or
was read before. -/
theorem connect_congr (t : FileTree) (hpaths : m₁.paths = m₂.paths)
    (hstrictness : m₁.strictness = m₂.strictness) : m₁.connect t = m₂.connect t := by
  have hcount : m₁.sources.length = m₂.sources.length := by
    have hlength := congrArg List.length hpaths
    unfold paths at hlength
    rwa [List.length_map, List.length_map] at hlength
  unfold connect
  rw [disconnect_eq, disconnect_eq, hpaths, hcount, hstrictness]

/-! ## §2. What is registered later. -/

/-- Registers several files. -/
def addAll (m : Merge) (paths : List String) : Merge :=
  { m with sources := m.sources ++ unopened paths }

theorem addAll_nil (m : Merge) : m.addAll [] = m := by
  show { m with sources := m.sources ++ [] } = m
  rw [List.append_nil]

theorem add_addAll (m : Merge) (paths : List String) (path : String) :
    (m.addAll paths).add path = m.addAll (paths ++ [path]) := by
  unfold add addAll unopened
  rw [List.map_append, List.append_assoc]
  rfl

/-- A sweep passes files over that are not open. -/
theorem sweep_unopened (codec : Codec) (strictness : Strictness) (w : Int) (paths : List String)
    (merged : Record) :
    sweep codec strictness w (unopened paths) merged = ⟨.ok (), unopened paths, merged, []⟩ := by
  induction paths with
  | nil => rfl
  | cons path rest ih =>
    show sweep codec strictness w (⟨path, none⟩ :: unopened rest) merged = _
    rw [sweep, ih]
    rfl

/-- **A sweep keeps later files behind the others** and comes to the same. -/
theorem sweep_append_unopened (codec : Codec) (strictness : Strictness) (w : Int)
    (paths : List String) (ss : List Source) (merged : Record) :
    sweep codec strictness w (ss ++ unopened paths) merged =
      { sweep codec strictness w ss merged with
        sources := (sweep codec strictness w ss merged).sources ++ unopened paths } := by
  cases hresult : (sweep codec strictness w ss merged).result with
  | error e => exact sweep_append_of_error hresult
  | ok u =>
    rw [sweep_append_of_ok hresult]
    simp only [sweep_unopened, hresult, List.append_nil]

theorem waitingTime_append_unopened (ss : List Source) (paths : List String) :
    waitingTime (ss ++ unopened paths) = waitingTime ss := by
  cases ss with
  | nil =>
    cases paths with
    | nil => rfl
    | cons path rest => rfl
  | cons s rest =>
    obtain ⟨path, feed⟩ := s
    cases feed with
    | none => rfl
    | some f => rfl

/-- **A step is the same with later files registered**, and keeps them
registered. -/
theorem next_addAll (codec : Codec) (m : Merge) (paths : List String) :
    ((m.addAll paths).next codec).result = (m.next codec).result ∧
    ((m.addAll paths).next codec).state = (m.next codec).state.addAll paths := by
  have hphase : (m.addAll paths).phase = m.phase := rfl
  unfold next
  rw [hphase]
  cases m.phase with
  | unconnected | ended => exact ⟨rfl, rfl⟩
  | connected watermark =>
    cases watermark with
    | none => exact ⟨rfl, rfl⟩
    | some w =>
      have hsweep := sweep_append_unopened codec m.strictness w paths m.sources []
      have hsources : (m.addAll paths).sources = m.sources ++ unopened paths := rfl
      have hstrictness : (m.addAll paths).strictness = m.strictness := rfl
      simp only [hsources, hstrictness, hsweep, waitingTime_append_unopened]
      generalize sweep codec m.strictness w m.sources [] = swept
      cases swept.result with
      | error e => exact ⟨rfl, rfl⟩
      | ok u =>
        cases swept.merged.isEmpty with
        | true => exact ⟨rfl, rfl⟩
        | false => exact ⟨rfl, rfl⟩

/-- **Requests to register a file can be erased** from what is read: by
induction on the requests, the merge is the one without them and the files
behind it. -/
theorem results_addAll {qs : List Request} : ∀ {m : Merge} {paths : List String},
    (∀ q ∈ qs, q.isReading = true) →
      (m.addAll paths).results qs = m.results ((qs.filterMap Request.codec?).map .next) := by
  induction qs with
  | nil => exact fun _ => rfl
  | cons q rest ih =>
    intro m paths hqs
    obtain ⟨hq, hrest⟩ := List.forall_mem_cons.1 hqs
    cases q with
    | clear | connect _ | disconnect => cases hq
    | add path =>
      rw [results_cons]
      show ((m.addAll paths).add path).results rest = _
      rw [add_addAll, ih hrest]
      rfl
    | next codec =>
      obtain ⟨hresult, hstate⟩ := next_addAll codec m paths
      rw [results_cons]
      show [((m.addAll paths).next codec).result] ++
        ((m.addAll paths).next codec).state.results rest = _
      rw [hresult, hstate, ih hrest]
      rfl

theorem results_of_reading {qs : List Request} (hqs : ∀ q ∈ qs, q.isReading = true) :
    m.results qs = m.results ((qs.filterMap Request.codec?).map .next) := by
  have h := @results_addAll qs m [] hqs
  rwa [addAll_nil] at h

/-! ## §3. Two histories. -/

/-- **A connection forgets history and later registrations.**  Two histories
of merges of one strictness, with any requests, that end with the same paths
registered: connecting to the same files comes to the same, and so does every
request for a record that follows, one by one, until one that is not reading,
whichever files are registered in between. -/
theorem connection_forgets (strictness : Strictness) (history₁ history₂ : List Request)
    (t : FileTree)
    (hpaths : ((new strictness).askAll history₁).paths =
      ((new strictness).askAll history₂).paths) :
    let connected₁ := ((new strictness).askAll history₁).connect t
    let connected₂ := ((new strictness).askAll history₂).connect t
    connected₁.result = connected₂.result ∧
    ∀ qs₁ qs₂ : List Request, (∀ q ∈ qs₁ ++ qs₂, q.isReading = true) →
      qs₁.filterMap Request.codec? = qs₂.filterMap Request.codec? →
        connected₁.state.results qs₁ = connected₂.state.results qs₂ := by
  intro connected₁ connected₂
  have hsame : connected₁ = connected₂ := by
    refine connect_congr t hpaths ?_
    rw [strictness_askAll, strictness_askAll]
  refine ⟨by rw [hsame], ?_⟩
  intro qs₁ qs₂ hreading hcodecs
  obtain ⟨hqs₁, hqs₂⟩ := List.forall_mem_append.1 hreading
  rw [hsame, results_of_reading hqs₁, results_of_reading hqs₂, hcodecs]

/-- One of the histories fails to connect and forgets a file; the other one
has read to a step that failed. -/
theorem connection_forgets_brokenPair :
    let short : List Request := [.add "P.csv", .add "S.csv", .connect brokenPair,
      .next Codec.power]
    let long : List Request := [.add "Q.csv", .connect brokenPair, .clear, .next Codec.power,
      .add "P.csv", .connect brokenPair, .disconnect, .add "S.csv"]
    let connected (history : List Request) :=
      ((new .lenient).askAll history).connect brokenPair
    ((new .lenient).askAll short).paths = ((new .lenient).askAll long).paths ∧
    (connected short).result = (connected long).result ∧
    (connected short).state.results [.next Codec.power, .next Codec.power] =
      (connected long).state.results
        [.add "Q.csv", .next Codec.power, .add "P.csv", .next Codec.power] := by
  intro short long connected
  have hpaths : ((new .lenient).askAll short).paths = ((new .lenient).askAll long).paths := by
    decide +kernel
  obtain ⟨hresult, hresults⟩ := connection_forgets .lenient short long brokenPair hpaths
  refine ⟨hpaths, hresult, hresults _ _ ?_ rfl⟩
  intro q hq
  simp only [List.cons_append, List.nil_append, List.mem_cons, List.not_mem_nil, or_false] at hq
  rcases hq with rfl | rfl | rfl | rfl | rfl | rfl
  all_goals rfl

end ReportStore.Merge
