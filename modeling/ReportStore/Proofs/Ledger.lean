/-
  ReportStore.Proofs.Ledger
  ─────────────────────────
  **THE COUNTERS OF A STORE ARE ITS BOOKS.**

  A store is asked for one thing after the other, and forgets the files that
  it closes and the records that it hands out.  A ledger goes along with the
  session and keeps them.  Whatever the operations are, failed ones included,
  the counters of the store agree with the ledger after each of them:

      rows read + rows skipped = rows taken from all files ever opened
      records merged = records handed out ≤ rows read

  Each operation has an account of what it takes, hands out and reports, and
  so has a run of them.  A save has no part in that.
-/
import ReportStore.Proofs.Merge.Accounting
import ReportStore.Proofs.Session

namespace ReportStore

/-! ## §1. What a session forgets. -/

/-- The files that connecting opens in order.  The last one may lack a column
and be turned down. -/
def openings (t : FileTree) : List String → List Feed
  | [] => []
  | path :: rest =>
    match Feed.openAt t path with
    | .error _ => []
    | .ok f =>
      match Merge.openSource t path with
      | .error _ => [f]
      | .ok _ => f :: openings t rest

namespace Session

/-- The files that connecting closes, as they are left: those that are open,
and those that are opened on the way to a failure. -/
def closedByConnecting (s : Session) : List Feed :=
  openFeeds s.store.merge.sources ++
    if (s.store.connect s.tree).result.isOk then [] else openings s.tree s.store.files

/-- The files that an operation closes, as they are left. -/
def closedBy (s : Session) : Operation → List Feed
  | .clear | .disconnect => openFeeds s.store.merge.sources
  | .connect => s.closedByConnecting
  -- A run connects a store that is not connected.
  | .iterate _ => if s.store.merge.isConnected then [] else s.closedByConnecting
  | .add _ | .next | .save _ | .saveMany _ | .outside _ => []

end Session

/-- A session, and what it does not keep itself. -/
structure Ledger where
  session : Session
  /-- The files that were closed, as they were left. -/
  closed : List Feed
  /-- The records that were handed out. -/
  handed : List Record

namespace Ledger

/-- The ledger of a new store. -/
def start (codec : Codec) (settings : Settings) (t : FileTree) : Ledger :=
  ⟨⟨t, Store.ofSettings codec settings⟩, [], []⟩

/-- The counters of the store. -/
def tally (l : Ledger) : Tally := l.session.store.tally

/-- Every file that was ever opened, as it stands or was left. -/
def feeds (l : Ledger) : List Feed := openFeeds l.session.store.merge.sources ++ l.closed

/-- Does one thing with the store, and takes down what it closes and hands
out. -/
def perform (l : Ledger) (op : Session.Operation) : Ledger :=
  let reply := l.session.perform op
  ⟨reply.session, l.session.closedBy op ++ l.closed, l.handed ++ reply.answer.records⟩

/-- Does one thing after the other. -/
def performAll (l : Ledger) (ops : List Session.Operation) : Ledger := ops.foldl perform l

end Ledger

/-! ## §2. A save has no part in what is read. -/

/-- Whether a counter is about what is read. -/
def Counter.isOfReading : Counter → Bool
  | .rowsRead | .rowsSkipped | .recordsMerged => true
  | .rowsWritten | .headersWritten | .saveFailures => false

/-- Some signals count nothing that is read. -/
def CountsNoReading (signals : List Signal) : Prop :=
  ∀ c : Counter, c.isOfReading = true → signals.count (.count c) = 0

theorem CountsNoReading.append {signals signals' : List Signal} (h : CountsNoReading signals)
    (h' : CountsNoReading signals') : CountsNoReading (signals ++ signals') := by
  intro c hc
  rw [List.count_append, h c hc, h' c hc]

theorem Accounted.of_save {n : Nat} {signals : List Signal} (h : CountsNoReading signals) :
    Accounted n n 0 signals :=
  ⟨by rw [h _ rfl, h _ rfl]; rfl, h _ rfl, Nat.zero_le _⟩

theorem Append.countsNoReading_performAll (appends : List Append) : ∀ t : FileTree,
    CountsNoReading (performAll t appends).signals := by
  induction appends with
  | nil => exact fun _ _ _ => rfl
  | cons a rest ih =>
    intro t
    unfold performAll
    cases t.append a.path a.bytes with
    | error e => exact fun _ _ => rfl
    | ok t' =>
      have happend : CountsNoReading a.signals := by
        intro c hc
        rw [count_signals]
        cases c with
        | rowsWritten | headersWritten | saveFailures => cases hc
        | rowsRead | rowsSkipped | recordsMerged => simp
      exact happend.append (ih t')

theorem countsNoReading_failure (e : Fault) : CountsNoReading (failureSignals e) := by
  intro c hc
  rw [count_failureSignals, if_neg]
  rintro rfl
  cases hc

theorem Plan.countsNoReading_commit (codec : Codec) (t : FileTree) (p : Plan) :
    CountsNoReading (p.commit codec t).signals := by
  unfold commit
  rcases t.makeDirectories p.directory with ⟨t', made⟩
  cases made with
  | error e => exact fun _ _ => rfl
  | ok u =>
    have hdone := Append.countsNoReading_performAll p.appends t'
    simp only
    generalize Append.performAll t' p.appends = done at hdone ⊢
    obtain ⟨result, state, signals⟩ := done
    cases result with
    | error e => exact hdone
    | ok u => exact hdone.append fun _ _ => rfl

theorem countsNoReading_saveBelow (base : String) (codec : Codec) (t : FileTree) (r : Record) :
    CountsNoReading (saveBelow base codec t r).signals := by
  unfold saveBelow
  cases Plan.ofRecord t base codec r with
  | error e => exact countsNoReading_failure e
  | ok plan =>
    have hdone := plan.countsNoReading_commit codec t
    simp only
    generalize plan.commit codec t = done at hdone ⊢
    obtain ⟨result, state, signals⟩ := done
    cases result with
    | error e => exact hdone.append (countsNoReading_failure e)
    | ok u => exact hdone

/-- **Saves count nothing that is read.** -/
theorem Store.countsNoReading_saveMany (rs : List Record) : ∀ (t : FileTree) (s : Store),
    CountsNoReading (s.saveMany t rs).signals := by
  induction rs with
  | nil => exact fun _ _ _ _ => rfl
  | cons r rest ih =>
    intro t s
    have hfirst : CountsNoReading (s.save t r).signals :=
      countsNoReading_saveBelow s.base s.codec t r
    unfold saveMany
    generalize s.save t r = o at hfirst ⊢
    obtain ⟨result, state, signals⟩ := o
    cases result with
    | error e => exact hfirst
    | ok u => exact hfirst.append (ih state.1 state.2)

/-! ## §3. The account of each operation. -/

/-- How many rows were taken from the files that are open. -/
def Store.taken (s : Store) : Nat := rowsTaken (openFeeds s.merge.sources)

/-- **What is taken, handed out and reported on the way from a store to
another**, some files being closed. -/
structure Store.Accounts (s s' : Store) (closed : List Feed) (records : List Record)
    (signals : List Signal) : Prop where
  codec : s'.codec = s.codec
  account : Accounted s.taken (s'.taken + rowsTaken closed) records.length signals

namespace Store.Accounts

variable {s s' s'' : Store} {closed : List Feed} {records records' : List Record}
  {signals signals' : List Signal}

theorem refl (s : Store) : Accounts s s [] [] [] := ⟨rfl, .of_uncounted fun _ => rfl⟩

/-- Files are closed first, and none after that. -/
theorem trans (h : Accounts s s' closed records signals)
    (h' : Accounts s' s'' [] records' signals') :
    Accounts s s'' closed (records ++ records') (signals ++ signals') := by
  refine ⟨h'.codec.trans h.codec, ?_⟩
  rw [List.length_append]
  exact h.account.trans (h'.account.frame _)

/-- Every open file is closed, and some that no row was taken from. -/
theorem of_closed {fresh : List Feed} (hcodec : s'.codec = s.codec) (hopen : s'.taken = 0)
    (hfresh : ∀ f ∈ fresh, f.taken = 0) (hcount : ∀ c, signals.count (.count c) = 0) :
    Accounts s s' (openFeeds s.merge.sources ++ fresh) [] signals := by
  refine ⟨hcodec, ?_⟩
  have hrows : s'.taken + rowsTaken (openFeeds s.merge.sources ++ fresh) = s.taken := by
    rw [hopen, rowsTaken_append, rowsTaken_eq_zero hfresh, Nat.zero_add, Nat.add_zero]
    rfl
  rw [hrows]
  exact .of_uncounted hcount

theorem of_cleared (hcodec : s'.codec = s.codec) (hopen : s'.taken = 0) :
    Accounts s s' (openFeeds s.merge.sources) [] [] := by
  have haccounts : Accounts s s' (openFeeds s.merge.sources ++ []) [] [] :=
    of_closed hcodec hopen (List.forall_mem_nil _) fun _ => rfl
  rwa [List.append_nil] at haccounts

/-- No file is closed, and no row is taken. -/
theorem of_kept (hcodec : s'.codec = s.codec) (htaken : s'.taken = s.taken)
    (hcount : CountsNoReading signals) : Accounts s s' [] [] signals := by
  refine ⟨hcodec, ?_⟩
  show Accounted s.taken (s'.taken + 0) 0 signals
  rw [htaken]
  exact .of_save hcount

end Store.Accounts

/-- No row is taken from a file that is opened on the way to a failure. -/
theorem taken_of_openings {t : FileTree} : ∀ {paths : List String},
    ∀ f ∈ openings t paths, f.taken = 0 := by
  intro paths
  induction paths with
  | nil => exact List.forall_mem_nil _
  | cons path rest ih =>
    unfold openings
    cases hopen : Feed.openAt t path with
    | error e => exact List.forall_mem_nil _
    | ok f =>
      have htaken : f.taken = 0 := Merge.taken_of_openAt hopen
      cases Merge.openSource t path with
      | error e => exact List.forall_mem_singleton.2 htaken
      | ok _ => exact List.forall_mem_cons.2 ⟨htaken, ih⟩

namespace Store

theorem next_accounts {s : Store} (hcodec : s.codec.TakesTimed) :
    Accounts s s.next.state [] (Merge.handedOut s.next.result) s.next.signals :=
  ⟨rfl, Merge.next_accounted hcodec s.merge⟩

/-- **Pulls of a run** have the accounts of their requests. -/
theorem pullMany_accounts (pulls : Nat) : ∀ {s : Store} (run : Run), s.codec.TakesTimed →
    Accounts s (s.pullMany run pulls).store [] (recordsIn (s.pullMany run pulls).items)
      (s.pullMany run pulls).signals := by
  induction pulls with
  | zero => exact fun _ _ => .refl _
  | succ pulls ih =>
    intro s run hcodec
    have hfirst : Accounts s (s.pull run).store [] (recordsIn [(s.pull run).item])
        (s.pull run).signals := by
      rcases s.pull_cases run with ⟨hstore, hsignals, hitem⟩ | ⟨hstore, hsignals, hitem⟩
      · rw [hstore, hsignals, hitem]
        exact .refl s
      · rw [hstore, hsignals, hitem]
        exact next_accounts hcodec
    have hitems : recordsIn (s.pullMany run (pulls + 1)).items =
        recordsIn [(s.pull run).item] ++
          recordsIn ((s.pull run).store.pullMany (s.pull run).run pulls).items :=
      List.filterMap_append (l := [(s.pull run).item])
    have hlater := ih (s := (s.pull run).store) (s.pull run).run (hfirst.codec ▸ hcodec)
    rw [hitems]
    exact hfirst.trans hlater

end Store

namespace Session

variable {s : Session}

theorem connect_accounts (s : Session) :
    Store.Accounts s.store (s.store.connect s.tree).state s.closedByConnecting []
      (s.store.connect s.tree).signals := by
  refine .of_closed rfl (Merge.rowsTaken_connect s.tree s.store.merge) ?_
    (Merge.count_connect s.store.merge)
  split
  · exact List.forall_mem_nil _
  · exact taken_of_openings

/-- The records of an answer to a request for one. -/
theorem records_handed (result : Except Fault (Option Record)) :
    (Answer.handed result).records = Merge.handedOut result := by
  cases result with
  | error e => rfl
  | ok handed => cases handed <;> rfl

/-- **Every operation has an account**, whatever it comes to. -/
theorem perform_accounts (hcodec : s.store.codec.TakesTimed) (op : Operation) :
    Store.Accounts s.store (s.perform op).session.store (s.closedBy op)
      (s.perform op).answer.records (s.perform op).signals := by
  cases op with
  | add path =>
    -- A file that is registered is not open before the next connect.
    have hopen : openFeeds (s.store.addFile path).merge.sources =
        openFeeds s.store.merge.sources := by
      show openFeeds (s.store.merge.sources ++ [⟨_, none⟩]) = _
      unfold openFeeds
      rw [List.filterMap_append]
      exact List.append_nil _
    exact .of_kept rfl (congrArg rowsTaken hopen) fun _ _ => rfl
  | clear => exact .of_cleared rfl rfl
  | connect => exact s.connect_accounts
  | disconnect =>
    have hopen : s.store.disconnect.taken = 0 := by
      show rowsTaken (openFeeds s.store.merge.disconnect.sources) = 0
      rw [Merge.openFeeds_disconnect]
      rfl
    exact .of_cleared rfl hopen
  | next =>
    have haccounts := Store.next_accounts hcodec
    rwa [← records_handed] at haccounts
  | iterate pulls =>
    unfold perform closedBy
    -- A fault of connecting waits in the run, so pulls follow in each case.
    rcases s.store.startRun_cases s.tree with
      ⟨hopen, hstart⟩ | ⟨hopen, -, hstart⟩ | ⟨e, hopen, -, hstart⟩
    · simp only [hstart, hopen, Store.Started.of, if_true]
      exact Store.pullMany_accounts pulls _ hcodec
    · simp only [hstart, hopen, Store.Started.of, Bool.false_eq_true, if_false]
      exact s.connect_accounts.trans (Store.pullMany_accounts pulls _ hcodec)
    · simp only [hstart, hopen, Store.Started.of, Bool.false_eq_true, if_false]
      exact s.connect_accounts.trans (Store.pullMany_accounts pulls _ hcodec)
  | save r => exact .of_kept rfl rfl (countsNoReading_saveBelow _ _ _ r)
  | saveMany rs =>
    obtain ⟨hcodec', hmerge⟩ := s.store.saveMany_kept rs s.tree
    have htaken : (s.store.saveMany s.tree rs).state.2.taken = s.store.taken := by
      unfold Store.taken
      rw [hmerge]
    exact .of_kept hcodec' htaken (s.store.countsNoReading_saveMany rs s.tree)
  | outside t => exact .refl s.store

end Session

/-! ## §4. How a ledger goes on. -/

namespace Ledger

variable {l : Ledger}

/-- **A ledger goes on from another one**: some signals went into the tally
of the store, and they are the account of what the ledger took down. -/
structure Continues (l l' : Ledger) (signals : List Signal) (records : List Record) : Prop where
  codec : l'.session.store.codec = l.session.store.codec
  tally : l'.tally = l.tally.record signals
  handed : l'.handed = l.handed ++ records
  account : Accounted (rowsTaken l.feeds) (rowsTaken l'.feeds) records.length signals

namespace Continues

variable {l' l'' : Ledger} {signals signals' : List Signal} {records records' : List Record}

theorem refl (l : Ledger) : Continues l l [] [] :=
  ⟨rfl, rfl, (List.append_nil _).symm, .of_uncounted fun _ => rfl⟩

theorem trans (h : Continues l l' signals records) (h' : Continues l' l'' signals' records') :
    Continues l l'' (signals ++ signals') (records ++ records') := by
  refine ⟨h'.codec.trans h.codec, ?_, ?_, ?_⟩
  · rw [h'.tally, h.tally, Tally.record_append]
  · rw [h'.handed, h.handed, List.append_assoc]
  · rw [List.length_append]
    exact h.account.trans h'.account

/-- **No counter ever decreases.** -/
theorem get_le (h : Continues l l' signals records) (c : Counter) :
    l.tally.get c ≤ l'.tally.get c := by
  rw [h.tally, Tally.get_record]
  exact Nat.le_add_right _ _

end Continues

/-- **Every operation continues the ledger**: by its account, and by what the
tally is told of it. -/
theorem perform_continues (hcodec : l.session.store.codec.TakesTimed) (op : Session.Operation) :
    Continues l (l.perform op) (l.session.perform op).signals
      (l.session.perform op).answer.records := by
  have haccounts := Session.perform_accounts hcodec op
  refine ⟨haccounts.codec, (l.session.perform_tells op).tally, rfl, ?_⟩
  have hbefore : rowsTaken l.feeds = l.session.store.taken + rowsTaken l.closed :=
    rowsTaken_append _ _
  have hafter : rowsTaken (l.perform op).feeds =
      (l.session.perform op).session.store.taken + rowsTaken (l.session.closedBy op) +
        rowsTaken l.closed := by
    show rowsTaken (_ ++ (l.session.closedBy op ++ l.closed)) = _
    rw [rowsTaken_append, rowsTaken_append, ← Nat.add_assoc]
    rfl
  rw [hbefore, hafter]
  exact haccounts.account.frame _

/-- **So does a run of operations.** -/
theorem performAll_continues (ops : List Session.Operation) : ∀ {l : Ledger},
    l.session.store.codec.TakesTimed →
      ∃ signals records, Continues l (l.performAll ops) signals records := by
  induction ops with
  | nil => exact fun _ => ⟨[], [], .refl _⟩
  | cons op rest ih =>
    intro l hcodec
    have hop := perform_continues hcodec op
    obtain ⟨signals, records, hrest⟩ := ih (l := l.perform op) (hop.codec ▸ hcodec)
    exact ⟨_, _, hop.trans hrest⟩

/-! ## §5. From the start. -/

/-- A new store has only registered its files. -/
theorem openFeeds_ofSettings (codec : Codec) (settings : Settings) :
    openFeeds (Store.ofSettings codec settings).merge.sources = [] := by
  have hadded : ∀ (paths : List String) (s : Store), openFeeds s.merge.sources = [] →
      openFeeds (s.addFiles paths).merge.sources = [] := by
    intro paths
    induction paths with
    | nil => exact fun _ h => h
    | cons path rest ih =>
      intro s h
      refine ih (s.addFile path) ?_
      show openFeeds (s.merge.sources ++ [⟨_, none⟩]) = []
      unfold openFeeds at h ⊢
      rw [List.filterMap_append, h]
      rfl
  exact hadded settings.files _ rfl

/-- **The counters of a store are its books.**  With a codec of the library and
any settings, after any operations on any files: the rows read and the rows
skipped are all rows taken from the files that were ever opened, half-read
ones included; the records merged are those handed out, and no more than the
rows read; and no counter decreases from there. -/
theorem rows_accounted (settings : Settings) {codec : Codec}
    (hcodec : codec ∈ [Codec.power, Codec.counters]) (t : FileTree)
    (before after : List Session.Operation) :
    let l := (start codec settings t).performAll before
    let later := l.performAll after
    l.tally.rowsRead + l.tally.rowsSkipped = rowsTaken l.feeds ∧
    l.tally.recordsMerged = l.handed.length ∧
    l.tally.recordsMerged ≤ l.tally.rowsRead ∧
    ∀ c, l.tally.get c ≤ later.tally.get c := by
  intro l later
  have htakes : (start codec settings t).session.store.codec.TakesTimed := by
    show (Store.ofSettings codec settings).codec.TakesTimed
    rw [Store.ofSettings, (Store.addFiles_eq settings.files _).2.1]
    exact Codec.takesTimed hcodec
  obtain ⟨signals, records, hbefore⟩ := performAll_continues before htakes
  obtain ⟨signals', records', hafter⟩ :=
    performAll_continues after (l := l) (hbefore.codec ▸ htakes)
  have hstart : (start codec settings t).tally = .zero := (Store.ofSettings_new codec settings).1
  have htally : ∀ c, l.tally.get c = signals.count (.count c) := by
    intro c
    rw [hbefore.tally, Tally.get_record, hstart]
    cases c <;> exact Nat.zero_add _
  have hrows := hbefore.account.rows
  have hzero : rowsTaken (start codec settings t).feeds = 0 := by
    show rowsTaken (openFeeds (Store.ofSettings codec settings).merge.sources ++ []) = 0
    rw [openFeeds_ofSettings]
    rfl
  have hhanded : l.handed = records := hbefore.handed
  refine ⟨?_, ?_, ?_, hafter.get_le⟩
  · show l.tally.get .rowsRead + l.tally.get .rowsSkipped = _
    rw [htally, htally, ← hrows, hzero, Nat.zero_add]
  · show l.tally.get .recordsMerged = _
    rw [htally, hbefore.account.merged, hhanded]
  · show l.tally.get .recordsMerged ≤ l.tally.get .rowsRead
    rw [htally, htally, hbefore.account.merged]
    exact hbefore.account.read

/-- Two files out of order are left half-read, connecting to files that are
missing fails, and a run over two others fails at a row that is malformed. -/
theorem rows_accounted_halfRead :
    let settings : Settings := { Settings.defaults "" with files := ["a.csv", "b.csv"] }
    let l := (start .power settings unsortedPair).performAll [.connect, .next,
      .outside Merge.brokenPair, .connect, .clear, .add "P.csv", .add "S.csv", .iterate 1]
    let later := l.performAll [.next]
    l.feeds.map (fun f => (f.path, f.taken)) =
      [("P.csv", 1), ("S.csv", 0), ("a.csv", 3), ("b.csv", 0)] ∧
    l.tally = ⟨3, 1, 1, 0, 0, 0⟩ ∧
    l.tally.rowsRead + l.tally.rowsSkipped = rowsTaken l.feeds ∧
    l.tally.recordsMerged = l.handed.length ∧
    l.tally.recordsMerged ≤ l.tally.rowsRead ∧
    ∀ c, l.tally.get c ≤ later.tally.get c := by
  intro settings l later
  refine ⟨by decide +kernel, by decide +kernel, ?_⟩
  exact rows_accounted settings List.mem_cons_self unsortedPair _ [.next]

end Ledger

end ReportStore
