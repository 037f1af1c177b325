/-
  ReportStore.Proofs.Session
  ──────────────────────────
  **A STORE IN USE, AND ITS JOURNAL.**

  A session is a store and the files it works on.  It is asked for one thing
  after the other, and answers; what its operations report is written to the
  journal as it comes, as far as it matters.  The least severity has no part
  in anything else, and of two journals of the same operations one can be
  read off the other:

      lines under least  =  filter (severity of the line ≥ least) (lines under trace)
-/
import ReportStore.Proofs.Replaying
import ReportStore.Proofs.Reports

namespace ReportStore

/-! ## §1. Sessions. -/

namespace Store

/-- What some pulls of a run come to. -/
structure Pulls where
  items : List (Option (Except Fault Record))
  store : Store
  signals : List Signal

/-- Pulls items of a run, one after the other, past its end too. -/
def pullMany (s : Store) (run : Run) : (pulls : Nat) → Pulls
  | 0 => ⟨[], s, []⟩
  | pulls + 1 =>
    let p := s.pull run
    let later := p.store.pullMany p.run pulls
    ⟨p.item :: later.items, later.store, p.signals ++ later.signals⟩

/-- The records among some items. -/
def recordsIn (items : List (Option (Except Fault Record))) : List Record :=
  items.filterMap fun item => item.bind Except.toOption

/-- How many of the saves succeed that saving many comes to. -/
def savedOf (t : FileTree) (s : Store) : List Record → Nat
  | [] => 0
  | r :: rest =>
    match (s.save t r).result with
    | .error _ => 0
    | .ok () => 1 + savedOf (s.save t r).state.1 (s.save t r).state.2 rest

end Store

/-- A store and the files that it works on. -/
structure Session where
  tree : FileTree
  store : Store

namespace Session

/-- What can be done with a store. -/
inductive Operation where
  | add (path : String)
  | clear
  | connect
  | disconnect
  | next
  /-- Starts a run and pulls so many items. -/
  | iterate (pulls : Nat)
  | save (r : Record)
  | saveMany (rs : List Record)
  /-- The files are changed by somebody else. -/
  | outside (t : FileTree)

/-- What an operation answers. -/
inductive Answer where
  | done
  | outcome (result : Except Fault Unit)
  | handed (result : Except Fault (Option Record))
  | items (items : List (Option (Except Fault Record)))

/-- The records of an answer. -/
def Answer.records : Answer → List Record
  | .handed (.ok (some r)) => [r]
  | .items pulled => Store.recordsIn pulled
  | _ => []

/-- An answer, the session as it is left, and what was reported. -/
structure Reply where
  answer : Answer
  session : Session
  signals : List Signal

/-- Does one thing with the store. -/
def perform (s : Session) : Operation → Reply
  | .add path => ⟨.done, { s with store := s.store.addFile path }, []⟩
  | .clear => ⟨.done, { s with store := s.store.clearFiles }, []⟩
  | .connect =>
    let o := s.store.connect s.tree
    ⟨.outcome o.result, { s with store := o.state }, o.signals⟩
  | .disconnect => ⟨.done, { s with store := s.store.disconnect }, []⟩
  | .next =>
    let o := s.store.next
    ⟨.handed o.result, { s with store := o.state }, o.signals⟩
  | .iterate pulls =>
    let o := s.store.startRun s.tree
    let p := o.state.pullMany o.run pulls
    ⟨.items p.items, { s with store := p.store }, o.signals ++ p.signals⟩
  | .save r =>
    let o := s.store.save s.tree r
    ⟨.outcome o.result, ⟨o.state.1, o.state.2⟩, o.signals⟩
  | .saveMany rs =>
    let o := s.store.saveMany s.tree rs
    ⟨.outcome o.result, ⟨o.state.1, o.state.2⟩, o.signals⟩
  | .outside t => ⟨.done, { s with tree := t }, []⟩

/-- The saves of an operation that succeed. -/
def savedBy (s : Session) : Operation → Nat
  | .save r => (savedEvents (s.store.save s.tree r).result).length
  | .saveMany rs => s.store.savedOf s.tree rs
  | _ => 0

/-- The answers of some operations, the session they leave, and the lines
they write to the journal. -/
structure Transcript where
  answers : List Answer
  session : Session
  lines : List String

/-- Does one thing after the other with a least severity set. -/
def run (least : Severity) (s : Session) : List Operation → Transcript
  | [] => ⟨[], s, []⟩
  | op :: rest =>
    let reply := s.perform op
    let later := reply.session.run least rest
    ⟨reply.answer :: later.answers, later.session,
      journalLines least reply.signals ++ later.lines⟩

/-- The saves of some operations that succeed. -/
def savedByAll (s : Session) : List Operation → Nat
  | [] => 0
  | op :: rest => s.savedBy op + (s.perform op).session.savedByAll rest

end Session

/-! ## §2. What each operation tells. -/

namespace Store

/-- A new store has counted nothing and opened no file. -/
theorem ofSettings_new (codec : Codec) (settings : Settings) :
    (ofSettings codec settings).tally = .zero ∧
      (ofSettings codec settings).merge.phase = .unconnected := by
  have hadded : ∀ (paths : List String) (s : Store),
      (s.addFiles paths).tally = s.tally ∧ (s.addFiles paths).merge.phase = s.merge.phase := by
    intro paths
    induction paths with
    | nil => exact fun _ => ⟨rfl, rfl⟩
    | cons path rest ih => exact fun s => ih (s.addFile path)
  exact hadded settings.files _

/-- **A pull is a step of the merge**, or it reports nothing and leaves the
store as it is. -/
theorem pull_cases (s : Store) (run : Run) :
    ((s.pull run).store = s ∧ (s.pull run).signals = [] ∧ recordsIn [(s.pull run).item] = []) ∨
      ((s.pull run).store = s.next.state ∧ (s.pull run).signals = s.next.signals ∧
        recordsIn [(s.pull run).item] = Merge.handedOut s.next.result) := by
  obtain ⟨pending, failed⟩ := run
  unfold pull
  cases failed with
  | true => exact .inl ⟨rfl, rfl, rfl⟩
  | false =>
    cases pending with
    | some e => exact .inl ⟨rfl, rfl, rfl⟩
    | none =>
      refine .inr ?_
      simp only [Bool.false_eq_true, if_false]
      cases s.next.result with
      | error e => exact ⟨rfl, rfl, rfl⟩
      | ok handed => cases handed <;> exact ⟨rfl, rfl, rfl⟩

/-- **What is told on the way from a store to another** goes into its tally. -/
structure Tells (s s' : Store) (saved : Nat) (signals : List Signal) : Prop where
  tally : s'.tally = s.tally.record signals
  told : ∃ events, Told s.merge s'.merge saved signals events

namespace Tells

variable {s s' s'' : Store} {saved saved' : Nat} {signals signals' : List Signal}

theorem refl (s : Store) : Tells s s 0 [] := ⟨rfl, [], .refl s.merge⟩

theorem trans (h : Tells s s' saved signals) (h' : Tells s' s'' saved' signals') :
    Tells s s'' (saved + saved') (signals ++ signals') := by
  obtain ⟨events, htold⟩ := h.told
  obtain ⟨events', htold'⟩ := h'.told
  refine ⟨?_, events ++ events', htold.trans htold'⟩
  rw [h'.tally, h.tally, Tally.record_append]

/-- A store that reports nothing and opens no stream. -/
theorem of_silent (htally : s'.tally = s.tally) (hrunning : s'.merge.Running → s.merge.Running) :
    Tells s s' 0 [] :=
  ⟨htally, [], .of_quiet .nil (List.forall_mem_nil _) hrunning⟩

end Tells

theorem connect_tells (t : FileTree) (s : Store) :
    Tells s (s.connect t).state 0 (s.connect t).signals := ⟨rfl, Merge.connect_told t s.merge⟩

theorem next_tells (s : Store) : Tells s s.next.state 0 s.next.signals :=
  ⟨rfl, Merge.next_told s.codec s.merge⟩

theorem pullMany_tells (pulls : Nat) : ∀ (s : Store) (run : Run),
    Tells s (s.pullMany run pulls).store 0 (s.pullMany run pulls).signals := by
  induction pulls with
  | zero => exact fun s _ => .refl s
  | succ pulls ih =>
    intro s run
    have hfirst : Tells s (s.pull run).store 0 (s.pull run).signals := by
      rcases s.pull_cases run with ⟨hstore, hsignals, -⟩ | ⟨hstore, hsignals, -⟩
      · rw [hstore, hsignals]
        exact .refl s
      · rw [hstore, hsignals]
        exact s.next_tells
    exact hfirst.trans (ih (s.pull run).store (s.pull run).run)

/-- Saves leave what a store reads, and how it translates, as they are. -/
theorem saveMany_kept (rs : List Record) : ∀ (t : FileTree) (s : Store),
    (s.saveMany t rs).state.2.codec = s.codec ∧ (s.saveMany t rs).state.2.merge = s.merge := by
  induction rs with
  | nil => exact fun _ _ => ⟨rfl, rfl⟩
  | cons r rest ih =>
    intro t s
    have hfirst : (s.save t r).state.2.codec = s.codec ∧ (s.save t r).state.2.merge = s.merge :=
      ⟨rfl, rfl⟩
    unfold saveMany
    generalize s.save t r = o at hfirst ⊢
    obtain ⟨result, state, signals⟩ := o
    cases result with
    | error e => exact hfirst
    | ok u =>
      obtain ⟨hcodec, hmerge⟩ := ih state.1 state.2
      exact ⟨hcodec.trans hfirst.1, hmerge.trans hfirst.2⟩

theorem save_tells (t : FileTree) (s : Store) (r : Record) :
    Tells s (s.save t r).state.2 (savedEvents (s.save t r).result).length
      (s.save t r).signals := by
  obtain ⟨quiet, hquiet, hreported⟩ := saveBelow_reported s.base s.codec t r
  exact ⟨rfl, _, .of_save s.merge hquiet hreported⟩

theorem saveMany_tells (rs : List Record) : ∀ (t : FileTree) (s : Store),
    Tells s (s.saveMany t rs).state.2 (s.savedOf t rs) (s.saveMany t rs).signals := by
  induction rs with
  | nil => exact fun _ s => .refl s
  | cons r rest ih =>
    intro t s
    have hfirst := s.save_tells t r
    unfold saveMany savedOf
    generalize s.save t r = o at hfirst ⊢
    obtain ⟨result, state, signals⟩ := o
    cases result with
    | error e => exact hfirst
    | ok u => exact hfirst.trans (ih state.1 state.2)

end Store

namespace Session

/-- **Whatever is done with a store**, its tally and its journal are told the
same. -/
theorem perform_tells (s : Session) (op : Operation) :
    Store.Tells s.store (s.perform op).session.store (s.savedBy op) (s.perform op).signals := by
  cases op with
  | add path => exact .of_silent rfl id
  | clear | disconnect => exact .of_silent rfl fun ⟨_, h⟩ => nomatch h
  | connect => exact s.store.connect_tells s.tree
  | next => exact s.store.next_tells
  | iterate pulls =>
    have hconnect := s.store.connect_tells s.tree
    show Store.Tells s.store (s.perform (.iterate pulls)).session.store 0 _
    unfold perform
    rcases s.store.startRun_cases s.tree with ⟨-, hstart⟩ | ⟨-, -, hstart⟩ | ⟨e, -, -, hstart⟩
    · simp only [hstart, Store.Started.of]
      exact Store.pullMany_tells pulls s.store .going
    · simp only [hstart, Store.Started.of]
      exact hconnect.trans (Store.pullMany_tells pulls _ .going)
    · simp only [hstart, Store.Started.of]
      exact hconnect.trans (Store.pullMany_tells pulls _ _)
  | save r => exact s.store.save_tells s.tree r
  | saveMany rs => exact Store.saveMany_tells rs s.tree s.store
  | outside t => exact .refl s.store

/-- **So are some operations**, under every least severity. -/
theorem run_tells (s : Session) (ops : List Operation) : ∃ signals,
    Store.Tells s.store (s.run .trace ops).session.store (s.savedByAll ops) signals ∧
      ∀ least, (s.run least ops).lines = journalLines least signals := by
  induction ops generalizing s with
  | nil => exact ⟨[], .refl s.store, fun _ => rfl⟩
  | cons op rest ih =>
    obtain ⟨later, htells, hlines⟩ := ih (s.perform op).session
    refine ⟨(s.perform op).signals ++ later, (s.perform_tells op).trans htells, ?_⟩
    intro least
    rw [journalLines_append, ← hlines]
    rfl

/-! ## §3. Two journals of the same operations. -/

/-- The least severity is in the lines only. -/
theorem run_congr (least least' : Severity) (ops : List Operation) : ∀ s : Session,
    (s.run least ops).answers = (s.run least' ops).answers ∧
      (s.run least ops).session = (s.run least' ops).session := by
  induction ops with
  | nil => exact fun _ => ⟨rfl, rfl⟩
  | cons op rest ih =>
    intro s
    obtain ⟨hanswers, hsession⟩ := ih (s.perform op).session
    exact ⟨congrArg ((s.perform op).answer :: ·) hanswers, hsession⟩

/-- **The journal only listens.**  Any operations on any store and files, run
twice under two least severities: every answer is the same, and so are the
files, the counters and the rest of the store in the end.  The lines that are
written under the one are those written under the lowest whose severity is
not less, in their order, and each line carries the severity of its event. -/
theorem journal_listens (s : Session) (ops : List Operation) (least least' : Severity) :
    let transcript := s.run least ops
    let other := s.run least' ops
    let full := s.run .trace ops
    transcript.answers = other.answers ∧ transcript.session = other.session ∧
    transcript.lines = full.lines.filter least.passesLine ∧
    ∀ line ∈ full.lines, ∃ (e : Event) (fields : List (String × String)),
      line = (e.entry fields).line ∧ lineSeverity line = some e.severity := by
  intro transcript other full
  obtain ⟨hanswers, hsession⟩ := run_congr least least' ops s
  obtain ⟨signals, htells, hlines⟩ := s.run_tells ops
  obtain ⟨events, htold⟩ := htells.told
  refine ⟨hanswers, hsession, ?_, ?_⟩
  · show (s.run least ops).lines = (s.run .trace ops).lines.filter _
    rw [hlines, hlines]
    exact journalLines_eq_filter htold.reported.known least
  · intro line hline
    have hmem : line ∈ (entries signals).map Entry.line := by
      rw [← journalLines_trace, ← hlines]
      exact hline
    obtain ⟨entry, hentry, rfl⟩ := List.mem_map.1 hmem
    obtain ⟨e, fields, rfl⟩ := htold.reported.known entry hentry
    exact ⟨e, fields, rfl, lineSeverity_line e fields⟩

end Session

end ReportStore
