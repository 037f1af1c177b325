/-
  ReportStore.Proofs.Iteration
  ────────────────────────────
  **A STREAM THAT IS READ IN PIECES.**

  A run hands out records, then at most one fault, then nothing for good:

      first n items  =  (records ++ fault ++ nothing ++ nothing ++ …).take n

  and no more records than the primary file has rows.  A run keeps nothing of
  the stream for itself, so one that is left early has taken what it was
  pulled for and no more.  Where the rest of a stream is without faults, it
  does not matter by which requests and runs it is read:

      handed out in pieces  =  (records of one run).take (pulls altogether)
-/
import ReportStore.Proofs.Merge.PrimaryRows
import ReportStore.Proofs.Session

namespace ReportStore

/-! ## §1. Items of a run. -/

/-- The first items of a run: records, then a fault if there is one, then
nothing for good. -/
def firstItems (records : List Record) (fault : Option Fault) (n : Nat) :
    List (Option (Except Fault Record)) :=
  let items : List (Except Fault Record) := records.map .ok ++ fault.toList.map .error
  (items.map some ++ List.replicate n none).take n

/-- Of what comes to nothing for good it does not matter how much is written. -/
theorem take_append_replicate {α : Type} (a : α) (xs : List α) (n : Nat) :
    (xs ++ List.replicate (n + 1) a).take n = (xs ++ List.replicate n a).take n := by
  rw [List.take_append, List.take_append, List.take_replicate, List.take_replicate]
  congr 2
  omega

theorem firstItems_record (r : Record) (records : List Record) (fault : Option Fault) (n : Nat) :
    firstItems (r :: records) fault (n + 1) = some (.ok r) :: firstItems records fault n := by
  unfold firstItems
  simp only [List.map_cons, List.cons_append, List.take_succ_cons]
  rw [take_append_replicate]

theorem firstItems_fault (e : Fault) (n : Nat) :
    firstItems [] (some e) (n + 1) = some (.error e) :: List.replicate n none := by
  unfold firstItems
  show some (Except.error e) :: List.take n (List.replicate (n + 1) none) = _
  rw [List.take_replicate, Nat.min_eq_left (Nat.le_succ n)]

theorem firstItems_nothing (n : Nat) : firstItems [] none n = List.replicate n none := by
  unfold firstItems
  show List.take n (List.replicate n none) = _
  rw [List.take_replicate, Nat.min_self]

/-- After a step that hands out nothing there are no more steps. -/
theorem Merge.next_again {codec : Codec} {m : Merge} (h : (m.next codec).result = .ok none) :
    ((m.next codec).state.next codec).result = .ok none := by
  by_cases hw : ∃ w, m.phase = .connected (some w)
  · obtain ⟨w, hphase⟩ := hw
    rw [next_of_ended codec (next_none hphase h).1]
  · exact (next_idle codec (next_idle codec (not_exists.1 hw)).2.2.2).1

theorem Merge.isConnected_next (codec : Codec) (m : Merge) :
    (m.next codec).state.isConnected = m.isConnected := by
  by_cases hw : ∃ w, m.phase = .connected (some w)
  · obtain ⟨w, hphase⟩ := hw
    unfold isConnected
    rcases next_cases codec hphase with ⟨e, -, -, hs⟩ | ⟨-, -, -, hs⟩ | ⟨-, -, -, hs⟩
    · rw [hs]
    · rw [hs, hphase]
      rfl
    · rw [hs, hphase]
      rfl
  · unfold isConnected
    rw [phase_next_idle codec (not_exists.1 hw)]
    split
    · next h =>
      rw [h]
      rfl
    · rfl

namespace Store

variable {s : Store}

/-- A pull of a run that nothing has ended. -/
theorem pull_going (s : Store) :
    s.pull .going =
      match s.next.result with
      | .ok handed => ⟨handed.map .ok, .going, s.next.state, s.next.signals⟩
      | .error e => ⟨some (.error e), ⟨none, true⟩, s.next.state, s.next.signals⟩ := by
  unfold pull Run.going
  simp only [Bool.false_eq_true, if_false]
  cases s.next.result with
  | error e => rfl
  | ok handed => cases handed <;> rfl

/-- A run that has ended with a fault gives nothing. -/
theorem items_of_failed (n : Nat) (s : Store) :
    (s.pullMany ⟨none, true⟩ n).items = List.replicate n none := by
  induction n with
  | zero => rfl
  | succ n ih => exact congrArg (none :: ·) ih

/-- A run that comes to the end of the stream gives nothing from there on. -/
theorem items_of_none (n : Nat) : ∀ {s : Store}, s.next.result = .ok none →
    (s.pullMany .going n).items = List.replicate n none := by
  induction n with
  | zero => exact fun _ => rfl
  | succ n ih =>
    intro s h
    have hagain : s.next.state.next.result = .ok none := Merge.next_again h
    unfold pullMany
    rw [pull_going, h]
    exact congrArg (none :: ·) (ih hagain)

/-- **The items of a run**: its records, its fault, and nothing for good. -/
theorem items_going (limit : Nat) : ∀ {s : Store} (n : Nat), s.remaining < limit →
    (s.pullMany .going n).items =
      firstItems (s.drainWithin limit .going).records (s.drainWithin limit .going).fault n := by
  induction limit with
  | zero => exact fun _ h => nomatch h
  | succ limit ih =>
    intro s n hleft
    cases n with
    | zero => rfl
    | succ n =>
      unfold pullMany
      rw [pull_going, drainWithin_succ]
      cases hresult : s.next.result with
      | error e =>
        rw [firstItems_fault]
        exact congrArg (some (.error e) :: ·) (items_of_failed n _)
      | ok handed =>
        cases handed with
        | none =>
          rw [firstItems_nothing, List.replicate_succ]
          exact congrArg (none :: ·) (items_of_none n (Merge.next_again hresult))
        | some r =>
          rw [firstItems_record]
          have hleft' : s.next.state.remaining < limit :=
            Nat.lt_of_lt_of_le (remaining_next_lt hresult) (Nat.le_of_lt_succ hleft)
          exact congrArg (some (.ok r) :: ·) (ih n hleft')

/-- A run whose connecting failed has that fault for its only item. -/
theorem items_of_pending (e : Fault) (s : Store) (n : Nat) :
    (s.pullMany ⟨some e, false⟩ n).items = firstItems [] (some e) n := by
  cases n with
  | zero => rfl
  | succ n =>
    rw [firstItems_fault]
    exact congrArg (some (.error e) :: ·) (items_of_failed n s)

/-! ## §2. No more records than rows. -/

/-- Each record of a run is handed out at a time of its own. -/
theorem length_records_le (limit : Nat) : ∀ s : Store,
    (s.drainWithin limit .going).records.length ≤
      (s.merge.handedTimes (List.replicate limit (.next s.codec))).length := by
  induction limit with
  | zero => exact fun _ => Nat.le_refl 0
  | succ limit ih =>
    intro s
    rw [drainWithin_succ, List.replicate_succ, Merge.handedTimes_cons, List.length_append]
    cases hresult : s.next.result with
    | error e => exact Nat.zero_le _
    | ok handed =>
      cases handed with
      | none => exact Nat.zero_le _
      | some r =>
        have hmerge : (s.merge.next s.codec).result = .ok (some r) := hresult
        obtain ⟨w, hphase⟩ := Merge.phase_of_result (by rw [hmerge]; nofun)
        have htime : Merge.handedTime (s.merge, .next s.codec) = some w := by
          unfold Merge.handedTime
          simp only [hmerge, Merge.watermark, hphase]
        have hlater := ih s.next.state
        rw [htime]
        show (s.next.state.drainWithin limit .going).records.length + 1 ≤ 1 + _
        rw [Nat.add_comm 1]
        exact Nat.succ_le_succ hlater

/-- **A run over connected files** has no more records than the primary one has
rows. -/
theorem length_drain_le {t : FileTree} (h : Merge.ReadsFrom s.codec t s.merge) :
    (s.drain .going).records.length ≤ primaryRowCount t s.files := by
  obtain ⟨times, hwithin, hle⟩ := h.exists_within
  have hreading : ∀ q ∈ List.replicate (s.remaining + 2) (Request.next s.codec),
      q.isReading = true := by
    intro q hq
    rw [List.eq_of_mem_replicate hq]
    rfl
  have hhanded := hwithin.length_handedTimes_le hreading
  exact ((length_records_le _ s).trans hhanded).trans hle

/-! ## §3. Pieces of a stream without faults. -/

/-- The store after some requests for a record. -/
def nexts : (n : Nat) → Store → Store
  | 0, s => s
  | n + 1, s => nexts n s.next.state

theorem nexts_add (a b : Nat) : ∀ s : Store, nexts (a + b) s = nexts b (nexts a s) := by
  induction a with
  | zero =>
    intro s
    rw [Nat.zero_add]
    rfl
  | succ a ih =>
    intro s
    rw [Nat.add_right_comm]
    exact ih s.next.state

theorem isConnected_nexts (n : Nat) : ∀ s : Store,
    (nexts n s).merge.isConnected = s.merge.isConnected := by
  induction n with
  | zero => exact fun _ => rfl
  | succ n ih => exact fun s => (ih s.next.state).trans (Merge.isConnected_next s.codec s.merge)

/-- The rest of the stream is without faults. -/
def Faultless (s : Store) : Prop := (s.drain .going).fault = none

/-- A whole run is its first step and the run after it. -/
theorem drain_going (s : Store) :
    s.drain .going =
      match s.next.result with
      | .ok none => ⟨[], none, s.next.state, s.next.signals⟩
      | .error e => ⟨[], some e, s.next.state, s.next.signals⟩
      | .ok (some r) =>
        let later := s.next.state.drain .going
        { later with
          records := r :: later.records
          signals := s.next.signals ++ later.signals } := by
  have hdrain : s.drain .going = _ := drainWithin_succ (s.remaining + 1) s
  rw [hdrain]
  cases hresult : s.next.result with
  | error e => rfl
  | ok handed =>
    cases handed with
    | none => rfl
    | some r =>
      have hless := remaining_next_lt hresult
      have hlater : s.next.state.remaining < s.remaining + 1 := by omega
      simp only [drain_eq hlater]

/-- **A step in a stream without faults** takes its first record, or finds it
at its end. -/
theorem Faultless.next (h : s.Faultless) :
    s.next.state.Faultless ∧ ∃ handed, s.next.result = .ok handed ∧
      (s.drain .going).records = handed.toList ++ (s.next.state.drain .going).records ∧
      (handed = none → (s.next.state.drain .going).records = []) := by
  have hdrain := s.drain_going
  unfold Faultless at h ⊢
  cases hresult : s.next.result with
  | error e =>
    rw [hdrain, hresult] at h
    cases h
  | ok handed =>
    rw [hresult] at hdrain
    cases handed with
    | none =>
      -- The next step finds the same.
      have hagain : s.next.state.next.result = .ok none := Merge.next_again hresult
      have hlater := s.next.state.drain_going
      rw [hagain] at hlater
      rw [hdrain, hlater]
      exact ⟨rfl, none, rfl, rfl, fun _ => rfl⟩
    | some r =>
      rw [hdrain] at h ⊢
      exact ⟨h, some r, rfl, rfl, nofun⟩

/-- **Pulls in a stream without faults** take its first records and leave the
others. -/
theorem Faultless.pullMany (n : Nat) : ∀ {s : Store}, s.Faultless →
    (s.pullMany .going n).store = nexts n s ∧ (nexts n s).Faultless ∧
    recordsIn (s.pullMany .going n).items = (s.drain .going).records.take n ∧
    ((nexts n s).drain .going).records = (s.drain .going).records.drop n := by
  induction n with
  | zero => exact fun h => ⟨rfl, h, List.take_zero.symm, rfl⟩
  | succ n ih =>
    intro s h
    obtain ⟨hnext, handed, hresult, hrecords, hend⟩ := h.next
    obtain ⟨hstore, hlater, htake, hdrop⟩ := ih hnext
    have hpull : s.pullMany .going (n + 1) =
        ⟨handed.map .ok :: (s.next.state.pullMany .going n).items,
          (s.next.state.pullMany .going n).store,
          s.next.signals ++ (s.next.state.pullMany .going n).signals⟩ := by
      rw [Store.pullMany, pull_going, hresult]
    rw [hpull]
    refine ⟨hstore, hlater, ?_, hdrop.trans ?_⟩
    · cases handed with
      | none =>
        rw [hrecords, hend rfl]
        rw [hend rfl, List.take_nil] at htake
        exact htake
      | some r =>
        rw [hrecords]
        exact congrArg (r :: ·) htake
    · cases handed with
      | none =>
        rw [hrecords, hend rfl]
        exact (List.drop_nil).trans (List.drop_nil).symm
      | some r => rw [hrecords]; rfl

end Store

namespace Session

open Store

/-! ## §4. Stores in use. -/

/-- A store that translates with a codec, and is not connected, or was
connected to some files and only read since. -/
def Placed (codec : Codec) (s : Store) : Prop :=
  s.codec = codec ∧
    (s.merge.isConnected = false ∨ ∃ t, Merge.ReadsFrom codec t s.merge)

theorem placed_next {codec : Codec} {s : Store} (h : Placed codec s) :
    Placed codec s.next.state := by
  obtain ⟨rfl, hunconnected | ⟨t, hreads⟩⟩ := h
  · exact ⟨rfl, .inl ((Merge.isConnected_next s.codec s.merge).trans hunconnected)⟩
  · exact ⟨rfl, .inr ⟨t, hreads.read⟩⟩

theorem placed_connect {codec : Codec} {s : Store} (h : Placed codec s) (t : FileTree) :
    Placed codec (s.connect t).state := by
  refine ⟨h.1, ?_⟩
  cases hresult : (s.merge.connect t).result with
  | ok u => exact .inr ⟨t, .connected hresult⟩
  | error e =>
    have hclosed : (s.merge.connect t).state = s.merge.disconnect :=
      Merge.connect_of_failed (by rw [hresult]; nofun)
    left
    show (s.merge.connect t).state.isConnected = false
    rw [hclosed]
    rfl

theorem placed_pullMany {codec : Codec} (n : Nat) : ∀ {s : Store} {run : Run}, Placed codec s →
    Placed codec (s.pullMany run n).store := by
  induction n with
  | zero => exact id
  | succ n ih =>
    intro s run h
    refine ih (s := (s.pull run).store) ?_
    rcases s.pull_cases run with ⟨hstore, -⟩ | ⟨hstore, -⟩
    · rwa [hstore]
    · rw [hstore]
      exact placed_next h

theorem placed_saveMany {codec : Codec} (rs : List Record) {t : FileTree} {s : Store}
    (h : Placed codec s) : Placed codec (s.saveMany t rs).state.2 := by
  obtain ⟨hcodec, hmerge⟩ := s.saveMany_kept rs t
  unfold Placed
  rw [hcodec, hmerge]
  exact h

/-- **Every operation keeps a store placed.** -/
theorem placed_perform {codec : Codec} {s : Session} (h : Placed codec s.store)
    (op : Operation) : Placed codec (s.perform op).session.store := by
  cases op with
  | add path =>
    exact ⟨h.1, h.2.imp_right fun ⟨t, hreads⟩ => ⟨t, hreads.added (s.store.resolve path)⟩⟩
  | clear | disconnect => exact ⟨h.1, .inl rfl⟩
  | connect => exact placed_connect h s.tree
  | next => exact placed_next h
  | iterate n =>
    have hconnect := placed_connect h s.tree
    unfold perform
    rcases s.store.startRun_cases s.tree with ⟨-, hstart⟩ | ⟨-, -, hstart⟩ | ⟨e, -, -, hstart⟩
    · simp only [hstart, Started.of]
      exact placed_pullMany n h
    · simp only [hstart, Started.of]
      exact placed_pullMany n hconnect
    · simp only [hstart, Started.of]
      exact placed_pullMany n hconnect
  | save r => exact h
  | saveMany rs => exact placed_saveMany rs h
  | outside t => exact h

theorem placed_run {codec : Codec} (least : Severity) (ops : List Operation) : ∀ {s : Session},
    Placed codec s.store → Placed codec (s.run least ops).session.store := by
  induction ops with
  | nil => exact id
  | cons op rest ih => exact fun h => ih (placed_perform h op)

/-! ## §5. One run, and several. -/

/-- What a run of a session comes to: on an unconnected store a fault of
connecting is its only item; otherwise it is the rest of the stream. -/
theorem items_iterate (s : Session) :
    (s.store.merge.isConnected = true ∧ ∀ n, (s.perform (.iterate n)).answer =
      .items (firstItems (s.store.drain .going).records (s.store.drain .going).fault n)) ∨
    (s.store.merge.isConnected = false ∧ (s.store.connect s.tree).result = .ok () ∧
      ∀ n, (s.perform (.iterate n)).answer =
        .items (firstItems ((s.store.connect s.tree).state.drain .going).records
          ((s.store.connect s.tree).state.drain .going).fault n)) ∨
    ∃ e, s.store.merge.isConnected = false ∧ (s.store.connect s.tree).result = .error e ∧
      ∀ n, (s.perform (.iterate n)).answer = .items (firstItems [] (some e) n) := by
  have hdrain : ∀ (store : Store) (n : Nat), (store.pullMany .going n).items =
      firstItems (store.drain .going).records (store.drain .going).fault n :=
    fun store n => items_going (store.remaining + 2) n (by omega)
  unfold perform
  rcases s.store.startRun_cases s.tree with
    ⟨hconnected, hstart⟩ | ⟨hconnected, hok, hstart⟩ | ⟨e, hconnected, herror, hstart⟩
  · simp only [hstart, Started.of, hdrain]
    exact .inl ⟨hconnected, fun _ => trivial⟩
  · simp only [hstart, Started.of, hdrain]
    exact .inr (.inl ⟨hconnected, hok, fun _ => trivial⟩)
  · simp only [hstart, Started.of, items_of_pending]
    exact .inr (.inr ⟨e, hconnected, herror, fun _ => rfl⟩)

/-- How often an operation that reads pulls at the stream; none for others. -/
def Operation.pulls? : Operation → Option Nat
  | .next => some 1
  | .iterate n => some n
  | _ => none

/-- **An operation that reads a stream without faults** takes its first
records and leaves the others, whichever operation it is. -/
theorem perform_pulling {s : Session} {op : Operation} {n : Nat} (hop : op.pulls? = some n)
    (hconnected : s.store.merge.isConnected = true) (h : s.store.Faultless) :
    (s.perform op).answer.records = (s.store.drain .going).records.take n ∧
      (s.perform op).session = ⟨s.tree, nexts n s.store⟩ := by
  cases op with
  | add _ | clear | connect | disconnect | save _ | saveMany _ | outside _ => cases hop
  | next =>
    obtain rfl : 1 = n := Option.some.inj hop
    obtain ⟨-, handed, hresult, hrecords, hend⟩ := h.next
    refine ⟨?_, rfl⟩
    show (Answer.handed s.store.next.result).records = _
    rw [hresult, hrecords]
    cases handed with
    | none =>
      rw [hend rfl]
      rfl
    | some r => rfl
  | iterate m =>
    obtain rfl : m = n := Option.some.inj hop
    obtain ⟨hstore, -, htake, -⟩ := h.pullMany m
    unfold perform
    rcases s.store.startRun_cases s.tree with ⟨-, hstart⟩ | ⟨hnot, -⟩ | ⟨e, hnot, -⟩
    · simp only [hstart, Started.of, hstore]
      exact ⟨htake, trivial⟩
    · rw [hconnected] at hnot
      cases hnot
    · rw [hconnected] at hnot
      cases hnot

/-- The pulls of some operations altogether. -/
def pullsOf (ops : List Operation) : Nat := (ops.filterMap Operation.pulls?).foldr (· + ·) 0

/-- **Operations that read a stream without faults** take its first records
and leave the others, by induction on the operations. -/
theorem run_pulling (least : Severity) {ops : List Operation} : ∀ {s : Session},
    (∀ op ∈ ops, op.pulls?.isSome = true) → s.store.merge.isConnected = true →
      s.store.Faultless →
        (s.run least ops).answers.flatMap Answer.records =
          (s.store.drain .going).records.take (pullsOf ops) ∧
        (s.run least ops).session = ⟨s.tree, nexts (pullsOf ops) s.store⟩ := by
  induction ops with
  | nil => exact fun _ _ _ => ⟨List.take_zero.symm, rfl⟩
  | cons op rest ih =>
    intro s hops hconnected h
    obtain ⟨hop, hrest⟩ := List.forall_mem_cons.1 hops
    obtain ⟨n, hn⟩ := Option.isSome_iff_exists.1 hop
    obtain ⟨hrecords, hsession⟩ := perform_pulling hn hconnected h
    obtain ⟨-, hfaultless, -, hdrop⟩ := h.pullMany n
    have hpulls : pullsOf (op :: rest) = n + pullsOf rest := by
      unfold pullsOf
      rw [List.filterMap_cons, hn, List.foldr_cons]
    have hlater := ih (s := ⟨s.tree, nexts n s.store⟩) hrest
      ((isConnected_nexts n s.store).trans hconnected) hfaultless
    rw [hpulls, List.take_add, nexts_add, ← hdrop]
    show (s.perform op).answer.records ++
        ((s.perform op).session.run least rest).answers.flatMap Answer.records = _ ∧
      ((s.perform op).session.run least rest).session = _
    rw [hrecords, hsession]
    exact ⟨congrArg _ hlater.1, hlater.2⟩

/-- **A stream that is read in pieces.**  For every store, whatever was done
with it and its files: the items of a run are records, then at most one
fault, then nothing for good; a failure to connect is that fault and comes
without a record; and there are no more records than rows in the primary
file, as it was when the store connected.  If the store is connected and the
rest of its stream is without faults, all ways of reading on, by requests
and by runs of any lengths, hand out the first records of one long run, as
many as were pulled, and leave the store the same. -/
theorem stream_in_pieces (codec : Codec) (settings : Settings) (t : FileTree)
    (history : List Operation) (least : Severity) :
    let s := (Session.run least ⟨t, Store.ofSettings codec settings⟩ history).session
    (∃ records fault opened,
      (∀ n, (s.perform (.iterate n)).answer = .items (firstItems records fault n)) ∧
      (∀ e, s.store.merge.isConnected = false → (s.store.connect s.tree).result = .error e →
        records = [] ∧ fault = some e) ∧
      (if s.store.merge.isConnected then Merge.ReadsFrom codec opened s.store.merge
        else opened = s.tree) ∧
      records.length ≤ primaryRowCount opened s.store.files) ∧
    (s.store.merge.isConnected = true → s.store.Faultless →
      ∀ ops : List Operation, (∀ op ∈ ops, op.pulls?.isSome = true) →
        (s.run least ops).answers.flatMap Answer.records =
          (s.store.drain .going).records.take (pullsOf ops) ∧
        (s.run least ops).session = ⟨s.tree, nexts (pullsOf ops) s.store⟩) := by
  intro s
  have hnew : Placed codec (Store.ofSettings codec settings) := by
    refine ⟨(addFiles_eq settings.files _).2.1, .inl ?_⟩
    unfold Merge.isConnected
    rw [(ofSettings_new codec settings).2]
    rfl
  have hplaced : Placed codec s.store := placed_run least history hnew
  refine ⟨?_, fun hconnected h ops hops => run_pulling least hops hconnected h⟩
  obtain ⟨hcodec, hreads⟩ := hplaced
  rcases s.items_iterate with
    ⟨hconnected, hitems⟩ | ⟨hconnected, hok, hitems⟩ | ⟨e, hconnected, herror, hitems⟩
  · obtain ⟨opened, hopened⟩ := hreads.resolve_left (by rw [hconnected]; nofun)
    refine ⟨_, _, opened, hitems, ?_, ?_, length_drain_le (hcodec.symm ▸ hopened)⟩
    · intro e hnot
      rw [hconnected] at hnot
      cases hnot
    · rwa [if_pos hconnected]
  · refine ⟨_, _, s.tree, hitems, ?_, ?_, ?_⟩
    · intro e _ herror
      rw [hok] at herror
      cases herror
    · rw [hconnected]
      rfl
    · have hle := length_drain_le (s := (s.store.connect s.tree).state)
        (Merge.ReadsFrom.connected hok)
      rwa [show (s.store.connect s.tree).state.files = s.store.files from
        Merge.paths_connect s.tree s.store.merge] at hle
  · refine ⟨[], some e, s.tree, hitems, ?_, ?_, Nat.zero_le _⟩
    · intro e' _ herror'
      rw [herror] at herror'
      injection herror' with he
      exact ⟨rfl, congrArg some he⟩
    · rw [hconnected]
      rfl

/-- A new store over two files at odds. -/
def newcomer : Session := ⟨atOdds, Store.ofSettings .power (Settings.defaults "")⟩

/-- Two records are read by three operations, past the end of the stream; and
a run over a file that is missing has one item. -/
theorem stream_in_pieces_atOdds :
    let s := (newcomer.run .trace [.add "p.csv", .add "a.csv", .connect]).session
    let ops : List Operation := [.iterate 1, .next, .iterate 2]
    let lost := (newcomer.run .trace [.add "q.csv"]).session
    (s.store.merge.isConnected = true ∧ s.store.Faultless ∧
      (∀ op ∈ ops, op.pulls?.isSome = true) ∧
      (s.store.drain .going).records.map (Dict.get? · "x") = [some (.int 3), some (.int 5)] ∧
      (s.run .trace ops).answers.flatMap Answer.records =
        (s.store.drain .going).records.take 4) ∧
    ∃ e, lost.store.merge.isConnected = false ∧
      (lost.store.connect lost.tree).result = .error e ∧
      (lost.perform (.iterate 3)).answer = .items [some (.error e), none, none] := by
  intro s ops lost
  have hconnected : s.store.merge.isConnected = true := by decide +kernel
  have hfaultless : s.store.Faultless := Option.isNone_iff_eq_none.1 (by decide +kernel)
  have hops : ∀ op ∈ ops, op.pulls?.isSome = true := by
    intro op hop
    simp only [ops, List.mem_cons, List.not_mem_nil, or_false] at hop
    rcases hop with rfl | rfl | rfl
    all_goals rfl
  have hpieces := (stream_in_pieces .power (Settings.defaults "") atOdds
    [.add "p.csv", .add "a.csv", .connect] .trace).2 hconnected hfaultless ops hops
  refine ⟨⟨hconnected, hfaultless, hops, by decide +kernel, hpieces.1⟩, ?_⟩
  have hunconnected : lost.store.merge.isConnected = false := by decide +kernel
  have hfails : (lost.store.connect lost.tree).result.isOk = false := by decide +kernel
  obtain ⟨records, fault, opened, hitems, hlost, -⟩ := (stream_in_pieces .power
    (Settings.defaults "") atOdds [.add "q.csv"] .trace).1
  cases hresult : (lost.store.connect lost.tree).result with
  | ok u =>
    rw [hresult] at hfails
    cases hfails
  | error e =>
    obtain ⟨rfl, rfl⟩ := hlost e hunconnected hresult
    exact ⟨e, hunconnected, rfl, hitems 3⟩

end Session

end ReportStore
