/-
  ReportStore.Proofs.Merge.Ascending
  ──────────────────────────────────
  **NO TIME IS HANDED OUT TWICE.**

  After a record was handed out the watermark has moved past its time, or
  stays at it with no file having a row left that is due.  Whatever is read
  then, failed steps included, leaves it so:

      handed out at b   →   b < watermark,  or  b = watermark and spent

  A spent watermark hands out nothing, so the next record is of a later
  time.  Where a codec keeps the time of a row in its fragment, the record
  carries the watermark as its time.
-/
import ReportStore.Proofs.Merge.Files
import ReportStore.Proofs.Merge.Recovery
import ReportStore.Proofs.Merge.Requests
import ReportStore.Proofs.Union

namespace ReportStore

/-! ## §1. The time that a record carries. -/

/-- A record in key order with a time as its time stamp. -/
def Record.Stamped (time : Int) (r : Record) : Prop :=
  Dict.Sorted r ∧ ∃ n : Int64, n.toInt = time ∧ Dict.get? r "timestamp" = some (.int n)

/-- **The union of records of one time is of that time.** -/
theorem Record.stamped_unionAll {time : Int} {rs : List Record} (hne : rs ≠ [])
    (h : ∀ r ∈ rs, Stamped time r) : Stamped time (unionAll rs) := by
  refine ⟨sorted_unionAll rs, ?_⟩
  rw [get?_unionAll fun r hr => (h r hr).1]
  have hstamp : ∀ v ∈ rs.filterMap (Dict.get? · "timestamp"),
      ∃ n : Int64, n.toInt = time ∧ v = .int n := by
    intro v hv
    obtain ⟨r, hr, hget⟩ := List.mem_filterMap.1 hv
    obtain ⟨-, n, hn, hint⟩ := h r hr
    rw [hint] at hget
    injection hget with hget
    exact ⟨n, hn, hget.symm⟩
  rw [Value.overAll_of_scalars]
  · -- Each record has a time stamp, so there is a last one.
    have hsome : rs.filterMap (Dict.get? · "timestamp") ≠ [] := by
      obtain ⟨r, hr⟩ := List.exists_mem_of_ne_nil rs hne
      obtain ⟨-, n, -, hint⟩ := h r hr
      exact List.ne_nil_of_mem (List.mem_filterMap.2 ⟨r, hr, hint⟩)
    obtain ⟨n, hn, hlast⟩ := hstamp _ (List.getLast_mem hsome)
    exact ⟨n, hn, by rw [List.getLast?_eq_some_getLast hsome, hlast]⟩
  · intro v hv
    obtain ⟨n, -, rfl⟩ := hstamp v hv
    rfl

/-- A field under another key leaves the time of a record. -/
theorem Record.Stamped.insert {time : Int} {r : Record} (h : r.Stamped time) {k : String}
    (hk : k ≠ "timestamp") (v : Value) : Record.Stamped time (Dict.insert r k v) := by
  obtain ⟨hsorted, n, hn, hget⟩ := h
  refine ⟨Dict.sorted_insert hsorted k v, n, hn, ?_⟩
  rw [Dict.get?_insert, if_neg (Ne.symm hk), hget]

theorem Record.Stamped.insertAll {time : Int} {fields : Record}
    (hfields : ∀ p ∈ fields, p.1 ≠ "timestamp") {r : Record} (h : r.Stamped time) :
    Record.Stamped time (fields.foldl (fun r p => Dict.insert r p.1 p.2) r) := by
  refine List.foldlRecOn (motive := Record.Stamped time) fields _ h ?_
  intro r h p hp
  exact h.insert (hfields p hp) p.2

namespace Codec

/-- Whether the fragment of a row in time carries the time of the row. -/
def Stamps (codec : Codec) : Prop :=
  ∀ {fileName : String} {row : Row} {fragment : Record} {time : Int}, row.time? = some time →
    codec.ofRow fileName row = .ok fragment → Record.Stamped time fragment

/-- The fields that are read go into the record, and no others. -/
theorem commonFields_ok {row : Row} {fields : List String} : ∀ {out r : Record},
    commonFields row fields out = .ok r →
      (Dict.Sorted out → Dict.Sorted r) ∧ ∀ k ∉ fields, Dict.get? r k = Dict.get? out k := by
  induction fields with
  | nil =>
    intro out r h
    injection h with h
    exact ⟨h ▸ id, fun k _ => h ▸ rfl⟩
  | cons field rest ih =>
    intro out r h
    unfold commonFields at h
    cases hget : Dict.get? row field with
    | none =>
      simp only [hget] at h
      obtain ⟨hsorted, hothers⟩ := ih h
      exact ⟨hsorted, fun k hk => hothers k fun hmem => hk (List.mem_cons_of_mem _ hmem)⟩
    | some cell =>
      simp only [hget] at h
      cases hvalue : commonValue field cell with
      | error e =>
        simp only [hvalue] at h
        cases h
      | ok v =>
        simp only [hvalue] at h
        obtain ⟨hsorted, hothers⟩ := ih h
        refine ⟨fun hout => hsorted (Dict.sorted_insert hout field v), ?_⟩
        intro k hk
        obtain ⟨hne, hrest⟩ := not_or.1 (mt List.mem_cons.2 hk)
        rw [hothers k hrest, Dict.get?_insert, if_neg hne]

/-- The time stamp is read as the time of the row. -/
theorem stamped_commonFields {row : Row} {time : Int} (h : row.time? = some time)
    {fields : List String} (hfields : "timestamp" ∉ fields) {r : Record}
    (hr : commonFields row ("timestamp" :: fields) [] = .ok r) : Record.Stamped time r := by
  obtain ⟨cell, hget, htime⟩ := get?_timestamp_of_time h
  unfold timeOfCell? at htime
  cases hint : Text.Digits.int64? (Text.trim cell.toList) with
  | none =>
    rw [hint] at htime
    cases htime
  | some n =>
    simp only [hint, time?] at htime
    have hn : n.toInt = time := by
      split at htime
      · injection htime
      · cases htime
    have hvalue : commonValue "timestamp" cell = .ok (.int n) := by
      simp only [commonValue, if_true, hint]
    simp only [commonFields, hget, hvalue] at hr
    obtain ⟨hsorted, hothers⟩ := commonFields_ok hr
    refine ⟨hsorted (Dict.sorted_insert Dict.sorted_nil _ _), n, hn, ?_⟩
    rw [hothers _ hfields, Dict.get?_insert, if_pos rfl]

theorem stamps_power : power.Stamps := by
  intro fileName row fragment time htime hrow
  have hrow' : Power.ofRow fileName row = .ok fragment := hrow
  unfold Power.ofRow Columns.common at hrow'
  cases hcommon : commonFields row ["timestamp", "sensor", "target", "socket", "cpu"] [] with
  | error e =>
    rw [hcommon] at hrow'
    cases hrow'
  | ok r =>
    rw [hcommon] at hrow'
    injection hrow' with hrow'
    subst hrow'
    refine (stamped_commonFields htime (by decide) hcommon).insertAll ?_
    -- A common column is none of the own ones.
    intro p hp hkey
    obtain ⟨q, hq, rfl⟩ := List.mem_map.1 hp
    have hown : (!Columns.isCommon q.1) = true := (List.mem_filter.1 hq).2
    rw [show q.1 = "timestamp" from hkey] at hown
    exact absurd hown (by decide)

theorem stamps_counters : counters.Stamps := by
  intro fileName row fragment time htime hrow
  have hrow' : Counters.ofRow fileName row = .ok fragment := hrow
  unfold Counters.ofRow at hrow'
  cases hcommon : commonFields row ["timestamp", "sensor", "target"] [] with
  | error e =>
    rw [hcommon] at hrow'
    cases hrow'
  | ok r =>
    rw [hcommon] at hrow'
    injection hrow' with hrow'
    subst hrow'
    exact (stamped_commonFields htime (by decide) hcommon).insert (by decide) _

end Codec

namespace Merge

variable {codec : Codec} {m : Merge} {w : Int} {r : Record}

/-- **A record carries the watermark** it was handed out at. -/
theorem stamped_of_next (hcodec : codec.Stamps) (hphase : m.phase = .connected (some w))
    (hresult : (m.next codec).result = .ok (some r)) : r.Stamped w := by
  obtain ⟨hr, hne, -⟩ := next_some hphase hresult
  rw [hr] at hne ⊢
  refine Record.stamped_unionAll (fun hnil => hne (by rw [hnil]; rfl)) ?_
  intro fragment hfragment
  obtain ⟨s, -, f, -, row, -, htime, hdecoded⟩ := exists_row_of_mem_dueFrom hfragment
  exact hcodec htime hdecoded

end Merge

/-! ## §2. What was handed out stays behind. -/

/-- Where no row is due, none is after rows were passed. -/
theorem Spent.of_passed {codec : Codec} {w : Int} {ss ss' : List Source} (h : Spent w ss)
    (hpassed : SourcesPassed codec w ss ss') : Spent w ss' := by
  refine hpassed.keeps (P := fun _ f => dueAt w f.timed = []) ?_ h
  intro path f f' taken hfirst hnil
  obtain ⟨before, htimed, hbefore, -⟩ := hfirst.timed_eq
  rw [htimed, dueAt_append hbefore] at hnil
  exact (List.append_eq_nil_iff.1 hnil).2

namespace Merge

variable {codec : Codec} {m : Merge} {time w : Int} {r : Record}

/-- A time that a merge is done with: its watermark is past the time, or
stays at it with no row that is due. -/
def Cleared (time : Int) (m : Merge) : Prop :=
  ∀ w, m.phase = .connected (some w) → time < w ∨ (time = w ∧ Spent w m.sources)

/-- A file that is registered later is not open. -/
theorem Cleared.add (h : Cleared time m) (path : String) : Cleared time (m.add path) := by
  intro w hw
  refine (h w hw).imp_right fun ⟨htime, hspent⟩ => ⟨htime, ?_⟩
  intro s hs
  rcases List.mem_append.1 hs with hs | hs
  · exact hspent s hs
  · rw [List.mem_singleton.1 hs]
    simp

/-- **A merge that is done with a time stays so**, whatever the next step
comes to. -/
theorem Cleared.next (h : Cleared time m) (codec : Codec) :
    Cleared time (m.next codec).state := by
  intro w hw
  obtain ⟨v, hv⟩ := phase_of_next hw
  obtain ⟨hvw, -⟩ := next_watermark hv hw
  rcases h v hv with hlt | ⟨rfl, hspent⟩
  · exact .inl (by omega)
  · by_cases heq : time = w
    · exact .inr ⟨heq, heq ▸ hspent.of_passed (next_passed hv)⟩
    · exact .inl (by omega)

/-- **The step that hands out the record of a time is done with it.** -/
theorem cleared_of_next (hphase : m.phase = .connected (some w))
    (hresult : (m.next codec).result = .ok (some r)) : Cleared w (m.next codec).state := by
  intro v hv
  obtain ⟨-, -, -, -, hphase', hahead⟩ := next_some hphase hresult
  rw [hphase'] at hv
  injection hv with hv
  injection hv with hv
  cases htimes : (m.next codec).state.times.head? with
  | none =>
    rw [htimes] at hv
    obtain rfl : w = v := hv
    exact .inr ⟨rfl, spent_next hphase hresult⟩
  | some t =>
    rw [htimes] at hv
    obtain rfl : t = v := hv
    exact .inl (hahead t htimes)

/-- A time that a merge is done with is before the next one. -/
theorem Cleared.lt_of_next (h : Cleared time m) (hphase : m.phase = .connected (some w))
    (hresult : (m.next codec).result = .ok (some r)) : time < w := by
  rcases h w hphase with hlt | ⟨-, hspent⟩
  · exact hlt
  · obtain ⟨hr, hne, -⟩ := next_some hphase hresult
    have hnil : m.due codec w = [] := hspent.dueFrom_eq_nil
    rw [hnil] at hr
    exact absurd hr hne

/-! ## §3. The times of a use. -/

/-- The time of the record that a request hands out, if it does. -/
def handedTime (asked : Merge × Request) : Option Int :=
  match asked.2 with
  | .next codec =>
    match (asked.1.next codec).result with
    | .ok (some _) => asked.1.watermark
    | .ok none | .error _ => none
  | _ => none

/-- The times of the records that some requests hand out. -/
def handedTimes (m : Merge) (qs : List Request) : List Int := (m.trace qs).filterMap handedTime

theorem handedTimes_cons (m : Merge) (q : Request) (rest : List Request) :
    m.handedTimes (q :: rest) = (handedTime (m, q)).toList ++ (m.ask q).handedTimes rest := by
  unfold handedTimes
  rw [trace, List.filterMap_cons]
  cases handedTime (m, q) with
  | none => rfl
  | some time => rfl

/-- A time is handed out with a record at that watermark. -/
theorem handedTime_eq_some {q : Request} (h : handedTime (m, q) = some time) :
    ∃ codec r, q = .next codec ∧ m.phase = .connected (some time) ∧
      (m.next codec).result = .ok (some r) := by
  cases q with
  | add _ | clear | connect _ | disconnect => cases h
  | next codec =>
    unfold handedTime at h
    cases hresult : (m.next codec).result with
    | error e => simp [hresult] at h
    | ok handed =>
      cases handed with
      | none => simp [hresult] at h
      | some r =>
        obtain ⟨w, hw⟩ := phase_of_result (by rw [hresult]; nofun)
        simp only [hresult, watermark, hw] at h
        injection h with h
        exact ⟨codec, r, rfl, h ▸ hw, hresult⟩

theorem Cleared.ask (h : Cleared time m) {q : Request} (hq : q.isReading = true) :
    Cleared time (m.ask q) := by
  cases q with
  | clear | connect _ | disconnect => cases hq
  | add path => exact h.add path
  | next codec => exact h.next codec

/-- What a merge is done with is before all that it hands out while it is
read. -/
theorem Cleared.lt_handedTimes {qs : List Request} : ∀ {m : Merge}, Cleared time m →
    (∀ q ∈ qs, q.isReading = true) → ∀ later ∈ m.handedTimes qs, time < later := by
  induction qs with
  | nil => exact fun _ _ _ hmem => nomatch hmem
  | cons q rest ih =>
    intro m h hqs later hlater
    obtain ⟨hq, hrest⟩ := List.forall_mem_cons.1 hqs
    rw [handedTimes_cons] at hlater
    rcases List.mem_append.1 hlater with hhere | hlater
    · obtain ⟨codec, r, -, hphase, hresult⟩ := handedTime_eq_some (Option.mem_toList.1 hhere)
      exact h.lt_of_next hphase hresult
    · exact ih (h.ask hq) hrest later hlater

/-- The times ascend, by induction on the requests: the step that hands out
the first is done with it, and so with all that follow. -/
theorem pairwise_handedTimes {qs : List Request} : ∀ {m : Merge},
    (∀ q ∈ qs, q.isReading = true) → (m.handedTimes qs).Pairwise (· < ·) := by
  induction qs with
  | nil => exact fun _ => List.Pairwise.nil
  | cons q rest ih =>
    intro m hqs
    obtain ⟨hq, hrest⟩ := List.forall_mem_cons.1 hqs
    rw [handedTimes_cons]
    cases hhanded : handedTime (m, q) with
    | none => exact ih hrest
    | some time =>
      obtain ⟨codec, r, rfl, hphase, hresult⟩ := handedTime_eq_some hhanded
      have hcleared : Cleared time (m.ask (.next codec)) := cleared_of_next hphase hresult
      exact List.pairwise_cons.2 ⟨hcleared.lt_handedTimes hrest, ih hrest⟩

/-- **The times handed out ascend strictly**, so none is handed out twice.
This holds of any merge and of whatever is read from it, with any codec at
each step, steps that fail and files that are registered meanwhile included.
Every record is handed out at a watermark, and with a codec of the library
it carries that watermark as its time. -/
theorem handed_ascending (m : Merge) (qs : List Request) (hqs : ∀ q ∈ qs, q.isReading = true) :
    (m.handedTimes qs).Pairwise (· < ·) ∧
    ∀ (m' : Merge) (codec : Codec) (r : Record), (m'.next codec).result = .ok (some r) →
      ∃ w, m'.watermark = some w ∧
        (codec ∈ [Codec.power, Codec.counters] →
          ∃ n : Int64, n.toInt = w ∧ Dict.get? r "timestamp" = some (.int n)) := by
  refine ⟨pairwise_handedTimes hqs, ?_⟩
  intro m' codec r hresult
  obtain ⟨w, hphase⟩ := phase_of_result (by rw [hresult]; nofun)
  refine ⟨w, by simp only [watermark, hphase], ?_⟩
  intro hcodec
  have hstamps : codec.Stamps := by
    simp only [List.mem_cons, List.not_mem_nil, or_false] at hcodec
    rcases hcodec with rfl | rfl
    · exact Codec.stamps_power
    · exact Codec.stamps_counters
  exact (stamped_of_next hstamps hphase hresult).2

/-- Reading the broken pair to its end, with a file registered after the step
that fails. -/
def brokenReads : List Request :=
  [.next Codec.power, .add "Q.csv", .next Codec.power, .next Codec.counters, .next Codec.power]

theorem handed_ascending_brokenPair :
    (∀ q ∈ brokenReads, q.isReading = true) ∧ brokenStart.handedTimes brokenReads = [1, 2] ∧
      (brokenStart.handedTimes brokenReads).Pairwise (· < ·) := by
  have hqs : ∀ q ∈ brokenReads, q.isReading = true := by
    intro q hq
    simp only [brokenReads, List.mem_cons, List.not_mem_nil, or_false] at hq
    rcases hq with rfl | rfl | rfl | rfl | rfl
    all_goals rfl
  exact ⟨hqs, by decide +kernel, (handed_ascending brokenStart brokenReads hqs).1⟩

end Merge

end ReportStore
