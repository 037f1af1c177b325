/-
  ReportStore.Proofs.Merge.Standstill
  ───────────────────────────────────
  **A STEP THAT FAILS OVER A TIME FAILS FOR GOOD.**

  A row whose time cannot be read, or that a strict merge finds behind its
  watermark, is looked at and not taken.  When a step fails over it, every
  file before it has been passed up to the watermark, and the row is still
  held.  So the next step walks over the same files without taking a row,
  and comes to the same row with the same fault:

      next = error e, over a time   →   next again = ⟨error e, as it is, no signal⟩

  Codecs play no part in it, for no row is taken.  They do in the first step:
  a codec of one's own may refuse a row that is due, and name a time as the
  cause.  Such a fault is gone with its row.
-/
import ReportStore.Proofs.Merge.Accounting
import ReportStore.Proofs.Merge.Run
import ReportStore.Proofs.Merge.Requests

namespace ReportStore

/-- Whether a fault is about the time of a row. -/
def Fault.isOfTime : Fault → Bool
  | .badTimestamp .. | .outOfOrder .. => true
  | _ => false

/-! ## §1. Files at a standstill. -/

namespace Feed

/-- The row held, if one is, is ahead of a watermark. -/
def Waits (w : Int) (f : Feed) : Prop := ∃ waiting, f.heldTime = .ok waiting ∧ ∀ t ∈ waiting, w < t

/-- The row held stops a step because of its time. -/
inductive Balks (strictness : Strictness) (w : Int) (f : Feed) : Fault → Prop where
  /-- Its time cannot be read. -/
  | unreadable {row : Row} (held : f.held = some row) (time : row.time? = none) :
      Balks strictness w f (.badTimestamp f.path (timeCell row))
  /-- It is behind the watermark of a strict merge. -/
  | late {row : Row} {t : Int} (held : f.held = some row) (time : row.time? = some t)
      (behind : t < w) (strict : strictness = .strict) :
      Balks strictness w f (.outOfOrder f.path t w)

/-- A codec refuses a row that is due, with a fault of its choice. -/
def Refused (codec : Codec) (w : Int) (f : Feed) (e : Fault) : Prop :=
  ∃ row ∈ f.rows, row.time? = some w ∧ codec.ofRow f.fileName row = .error e

end Feed

namespace Merge

variable {codec : Codec} {strictness : Strictness} {w : Int} {f : Feed} {merged : Record}
  {m : Merge} {e : Fault}

/-- A row is in the way: every open file before it waits, and its own file balks. -/
inductive Halted (strictness : Strictness) (w : Int) (e : Fault) : List Source → Prop where
  | here {path : String} {f : Feed} {rest : List Source} (balks : f.Balks strictness w e) :
      Halted strictness w e (⟨path, some f⟩ :: rest)
  | closed {path : String} {rest : List Source} (later : Halted strictness w e rest) :
      Halted strictness w e (⟨path, none⟩ :: rest)
  | opened {path : String} {f : Feed} {rest : List Source} (waits : f.Waits w)
      (later : Halted strictness w e rest) : Halted strictness w e (⟨path, some f⟩ :: rest)

/-- Files that are registered behind do not matter. -/
theorem Halted.append {ss : List Source} (h : Halted strictness w e ss) (more : List Source) :
    Halted strictness w e (ss ++ more) := by
  induction h with
  | here balks => exact .here balks
  | closed _ ih => exact .closed ih
  | opened waits _ ih => exact .opened waits ih

/-- A pass over a file with a row held looks at that row first. -/
theorem drain_of_held {row : Row} (held : f.held = some row) :
    drain codec strictness w f merged =
      drainWithin codec strictness w (f.rest.length + 1) f merged := by
  simp only [drain, Feed.remaining, held, Option.isSome_some, if_true]

/-- A pass over a file that waits takes nothing. -/
theorem drain_of_waits (h : f.Waits w) (codec : Codec) (strictness : Strictness)
    (merged : Record) :
    ∃ waiting, drain codec strictness w f merged = ⟨.ok waiting, f, merged, []⟩ := by
  obtain ⟨waiting, hheld, hahead⟩ := h
  unfold Feed.heldTime at hheld
  cases held : f.held with
  | none =>
    refine ⟨none, ?_⟩
    unfold drain
    cases f.remaining with
    | zero => rfl
    | succ limit => simp only [drainWithin, held]
  | some row =>
    refine ⟨waiting, ?_⟩
    cases time : row.time? with
    | none =>
      have hcell : timeOfCell? (Feed.timeCell row) = none := time
      simp only [held, readTime, hcell] at hheld
      cases hheld
    | some t =>
      have hcell : timeOfCell? (Feed.timeCell row) = some t := time
      simp only [held, readTime, hcell, Except.map, Except.ok.injEq] at hheld
      subst hheld
      rw [drain_of_held held]
      simp only [drainWithin, held, verdict_eq, time, if_pos (hahead t rfl)]

/-- A pass over a file that balks fails at once. -/
theorem drain_of_balks (h : f.Balks strictness w e) (codec : Codec) (merged : Record) :
    drain codec strictness w f merged = ⟨.error e, f, merged, []⟩ := by
  cases h with
  | unreadable held time =>
    rw [drain_of_held held]
    simp only [drainWithin, held, verdict_eq, time]
  | @late row t held time behind strict =>
    have hahead : ¬ w < t := by omega
    have hdue : ¬ t = w := by omega
    rw [drain_of_held held]
    simp only [drainWithin, held, verdict_eq, time, if_neg hahead, if_neg hdue, strict]

/-- **Halted files stay as they are**: a sweep takes no row of them, gives no
signal, and fails with the fault of the row in the way. -/
theorem sweep_of_halted {ss : List Source} (h : Halted strictness w e ss) :
    sweep codec strictness w ss merged = ⟨.error e, ss, merged, []⟩ := by
  induction h with
  | here balks =>
    have hdrain := drain_of_balks balks codec merged
    rw [sweep_of_error (by rw [hdrain]), hdrain]
  | closed _ ih => rw [sweep, ih]
  | opened waits _ ih =>
    obtain ⟨waiting, hdrain⟩ := drain_of_waits waits codec strictness merged
    rw [sweep_of_ok (by rw [hdrain]), hdrain, ih]
    rfl

theorem next_of_halted (hphase : m.phase = .connected (some w))
    (h : Halted m.strictness w e m.sources) (codec : Codec) : m.next codec = ⟨.error e, m, []⟩ := by
  simp only [next, hphase, sweep_of_halted h]
  rw [← hphase]

/-! ## §2. How files come to a standstill. -/

theorem Draining.waits {d : Drained} (h : Draining codec strictness w f merged d)
    {waiting : Option Int} (hok : d.result = .ok waiting) : d.feed.Waits w :=
  ⟨waiting, h.heldTime hok⟩

/-- **A pass that fails over a time** leaves the row in the way held, unless the
codec named the fault. -/
theorem Draining.balks {d : Drained} (h : Draining codec strictness w f merged d)
    (herror : d.result = .error e) (htime : e.isOfTime = true) :
    f.Refused codec w e ∨ d.feed.Balks strictness w e := by
  induction h with
  | exhausted | waiting => cases herror
  | unreadable held time =>
    cases herror
    exact .inr (.unreadable held time)
  | late held time behind strict =>
    cases herror
    exact .inr (.late held time behind strict)
  | malformed held time reached advance =>
    obtain ⟨-, -, -, cause, rfl⟩ := Feed.rows_of_advance_error advance
    cases herror
    cases htime
  | @refused f next _ row _ _ held time advance decoded =>
    cases herror
    obtain ⟨hrows, -⟩ := Feed.rows_of_advance_ok held advance
    exact .inl ⟨row, hrows ▸ List.mem_cons_self, time, decoded⟩
  | skipped held time _ _ advance _ ih | united held time advance _ _ ih =>
    obtain ⟨hrows, -, hname, -⟩ := Feed.rows_of_advance_ok held advance
    rcases ih herror with ⟨row, hrow, hdue, hrefused⟩ | hbalks
    · exact .inl ⟨row, hrows ▸ List.mem_cons_of_mem _ hrow, hdue, hname ▸ hrefused⟩
    · exact .inr hbalks

/-- A merge that a row is in the way of. -/
def Stands (e : Fault) (m : Merge) : Prop :=
  ∃ w, m.phase = .connected (some w) ∧ Halted m.strictness w e m.sources

theorem Stands.next (h : m.Stands e) (codec : Codec) : m.next codec = ⟨.error e, m, []⟩ := by
  obtain ⟨w, hphase, hhalted⟩ := h
  exact next_of_halted hphase hhalted codec

/-- Reading on does not get the row out of the way. -/
theorem Stands.ask (h : m.Stands e) {q : Request} (hq : q.isReading = true) :
    (m.ask q).Stands e := by
  cases q with
  | add path =>
    obtain ⟨w, hphase, hhalted⟩ := h
    exact ⟨w, hphase, hhalted.append _⟩
  | next codec =>
    show (m.next codec).state.Stands e
    rw [h.next codec]
    exact h
  | clear | connect _ | disconnect => cases hq

theorem Stands.trace {qs : List Request} : ∀ {m : Merge}, m.Stands e →
    (∀ q ∈ qs, q.isReading = true) → ∀ asked ∈ m.trace qs, asked.1.Stands e := by
  induction qs with
  | nil => exact fun _ _ => List.forall_mem_nil _
  | cons q rest ih =>
    intro m h hqs
    obtain ⟨hq, hrest⟩ := List.forall_mem_cons.1 hqs
    exact List.forall_mem_cons.2 ⟨h, ih (h.ask hq) hrest⟩

/-- The codec refuses a row at the watermark of a merge. -/
def Refuses (codec : Codec) (m : Merge) (e : Fault) : Prop :=
  ∃ w, m.watermark = some w ∧ ∃ s ∈ m.sources, ∃ f ∈ s.feed, f.Refused codec w e

/-- A codec of the library refuses no row that has a time. -/
theorem not_refuses (hcodec : codec ∈ [Codec.power, Codec.counters]) : ¬ m.Refuses codec e := by
  rintro ⟨w, -, s, -, f, -, row, -, htime, hrefused⟩
  obtain ⟨r, hr⟩ := Codec.takesTimed hcodec f.fileName row w htime
  rw [hr] at hrefused
  cases hrefused

/-- The fault of a result can be told, whatever else the result may be. -/
theorem eq_error_of_match {α : Type} {x : Except Fault α}
    (h : (match x with | .error e' => e' == e | .ok _ => false) = true) : x = .error e := by
  cases x with
  | ok a => cases h
  | error e' => rw [eq_of_beq h]

end Merge

end ReportStore
