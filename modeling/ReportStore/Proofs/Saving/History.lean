/-
  ReportStore.Proofs.Saving.History
  ─────────────────────────────────
  **HISTORIES OF SAVES.**

  Any number of stores write below one base.  A world is the tree, the
  stores, and the saves that were made, each with what it came to; it goes
  on by calls of `save` and of `saveMany`.  Since saving many is saving one
  by one up to the first that fails, what every save keeps is kept along
  every history:

      P w → P (save w)   ⟹   P w → P (run w calls)

  Without a fault of the system, a save that fails changes no file, and one
  that succeeds adds the rows that it accepts.
-/
import ReportStore.Proofs.Saving.Kept
import ReportStore.Store

namespace ReportStore

open FileTree Plan

/-! ## §1. Worlds and calls. -/

/-- A save that was made: by which store, with which codec, of which record,
and what it came to. -/
structure Attempt where
  store : Nat
  codec : Codec
  record : Record
  result : Except Fault Unit

/-- A tree, stores that write to it, and the saves that were made. -/
structure World where
  tree : FileTree
  stores : Nat → Store
  attempts : List Attempt

/-- A call of a store. -/
inductive Call where
  | save (store : Nat) (r : Record)
  | saveMany (store : Nat) (rs : List Record)

def Call.store : Call → Nat
  | .save i _ => i
  | .saveMany i _ => i

/-- The saves that saving many comes to. -/
def Attempt.ofMany (i : Nat) (t : FileTree) (s : Store) : List Record → List Attempt
  | [] => []
  | r :: rest =>
    let o := s.save t r
    ⟨i, s.codec, r, o.result⟩ ::
      match o.result with
      | .error _ => []
      | .ok () => ofMany i o.state.1 o.state.2 rest

namespace World

/-- The stores, one of them as it is after a call. -/
def storesWith (w : World) (i : Nat) (s : Store) : Nat → Store :=
  fun j => if j = i then s else w.stores j

/-- A save. -/
def save (w : World) (i : Nat) (r : Record) : World :=
  let o := (w.stores i).save w.tree r
  ⟨o.state.1, w.storesWith i o.state.2, w.attempts ++ [⟨i, (w.stores i).codec, r, o.result⟩]⟩

/-- A call. -/
def call (w : World) : Call → World
  | .save i r => w.save i r
  | .saveMany i rs =>
    let o := (w.stores i).saveMany w.tree rs
    ⟨o.state.1, w.storesWith i o.state.2,
      w.attempts ++ Attempt.ofMany i w.tree (w.stores i) rs⟩

/-- Calls, one after the other. -/
def run (w : World) (calls : List Call) : World := calls.foldl call w

/-! ## §2. Calls are saves. -/

theorem storesWith_self (w : World) (i : Nat) : w.storesWith i (w.stores i) = w.stores := by
  funext j
  unfold storesWith
  by_cases hj : j = i
  · rw [if_pos hj, hj]
  · rw [if_neg hj]

theorem stores_save_self (w : World) (i : Nat) (r : Record) :
    (w.save i r).stores i = ((w.stores i).save w.tree r).state.2 := if_pos rfl

theorem storesWith_save (w : World) (i : Nat) (r : Record) (s : Store) :
    (w.save i r).storesWith i s = w.storesWith i s := by
  funext j
  show (if j = i then s else if j = i then _ else w.stores j) = if j = i then s else w.stores j
  by_cases hj : j = i
  · rw [if_pos hj, if_pos hj]
  · rw [if_neg hj, if_neg hj, if_neg hj]

theorem call_saveMany_nil (w : World) (i : Nat) : w.call (.saveMany i []) = w := by
  show World.mk w.tree (w.storesWith i (w.stores i)) (w.attempts ++ []) = w
  rw [storesWith_self, List.append_nil]

/-- **Saving many is saving one by one**, up to the first that fails. -/
theorem call_saveMany_cons (w : World) (i : Nat) (r : Record) (rest : List Record) :
    w.call (.saveMany i (r :: rest)) =
      match ((w.stores i).save w.tree r).result with
      | .error _ => w.save i r
      | .ok () => (w.save i r).call (.saveMany i rest) := by
  cases hresult : ((w.stores i).save w.tree r).result with
  | error e => simp only [call, save, Store.saveMany, Attempt.ofMany, hresult]
  | ok u =>
    show _ = World.mk _ ((w.save i r).storesWith i _) _
    rw [storesWith_save]
    simp only [call, Store.saveMany, Attempt.ofMany, hresult, stores_save_self]
    simp only [save, hresult, List.append_assoc, List.singleton_append]

variable {P : World → Prop} {S : Nat → Prop}

theorem call_induction (hsave : ∀ w i r, S i → P w → P (w.save i r)) (w : World) (c : Call)
    (hstore : S c.store) (h : P w) : P (w.call c) := by
  cases c with
  | save i r => exact hsave w i r hstore h
  | saveMany i rs =>
    induction rs generalizing w with
    | nil => rwa [call_saveMany_nil]
    | cons r rest ih =>
      have hfirst := hsave w i r hstore h
      rw [call_saveMany_cons]
      cases ((w.stores i).save w.tree r).result with
      | error e => exact hfirst
      | ok u => exact ih (w.save i r) hfirst hstore

/-- **What every save keeps is kept along every history.** -/
theorem run_induction (hsave : ∀ w i r, S i → P w → P (w.save i r)) {calls : List Call} :
    ∀ {w : World}, (∀ c ∈ calls, S c.store) → P w → P (w.run calls) := by
  induction calls with
  | nil => exact fun _ h => h
  | cons c rest ih =>
    intro w hstores h
    obtain ⟨hstore, hrest⟩ := List.forall_mem_cons.1 hstores
    exact ih hrest (call_induction hsave w c hstore h)

end World

/-! ## §3. What a history accepts. -/

/-- The rows that a save has accepted: all of its groups, or none. -/
def Attempt.accepted (base : String) (a : Attempt) : List Accepted :=
  match a.result with
  | .error _ => []
  | .ok () =>
    match a.codec.toGroups a.record, entityDirectory base a.record with
    | .ok groups, .ok directory => Accepted.ofGroups directory groups
    | _, _ => []

namespace World

/-- The rows that were accepted, in order. -/
def accepted (base : String) (w : World) : List Accepted :=
  w.attempts.flatMap (Attempt.accepted base)

/-- No save has met a fault of the system. -/
def Undisturbed (w : World) : Prop :=
  ∀ a ∈ w.attempts, ∀ path cause, a.result ≠ .error (.system path cause)

theorem Undisturbed.of_save {w : World} {i : Nat} {r : Record} (h : (w.save i r).Undisturbed) :
    w.Undisturbed := fun a ha => h a (List.mem_append_left _ ha)

/-- A save that has accepted the rows of some groups, for the entity of this
name. -/
structure Took (base : String) (w : World) (i : Nat) (r : Record) (groups : GroupRows)
    (name : String) : Prop where
  sorted : Dict.Sorted groups
  plain : Path.isPlain name = true
  laidOut : (w.stores i).codec.toGroups r = .ok groups
  entity : entityDirectory base r = .ok (Path.join base name)
  ok : (saveBelow base (w.stores i).codec w.tree r).result = .ok ()
  saved : SavedAs w.tree (w.save i r).tree groups (Path.join base name)
  accepted : (w.save i r).accepted base =
    w.accepted base ++ Accepted.ofGroups (Path.join base name) groups

/-- A save that has failed and changed no file. -/
structure Refused (base : String) (w : World) (i : Nat) (r : Record) (e : Fault) : Prop where
  error : (saveBelow base (w.stores i).codec w.tree r).result = .error e
  signals : (saveBelow base (w.stores i).codec w.tree r).signals = failureSignals e
  tree : (w.save i r).tree = w.tree
  accepted : (w.save i r).accepted base = w.accepted base

/-- **What a save comes to**, if the system has no fault. -/
theorem save_cases {w : World} {i : Nat} {r : Record} {base : String}
    (hbase : (w.stores i).base = base) (hmaps : (w.stores i).codec.MapsGroups r)
    (hund : (w.save i r).Undisturbed) :
    (∃ groups name, Took base w i r groups name) ∨ ∃ e, Refused base w i r e := by
  subst hbase
  have haccepted : (w.save i r).accepted (w.stores i).base = w.accepted (w.stores i).base ++
      Attempt.accepted (w.stores i).base ⟨i, (w.stores i).codec, r,
        (saveBelow (w.stores i).base (w.stores i).codec w.tree r).result⟩ := by
    show List.flatMap _ (w.attempts ++ [_]) = _
    rw [List.flatMap_append, List.flatMap_singleton]
    rfl
  cases hresult : (saveBelow (w.stores i).base (w.stores i).codec w.tree r).result with
  | ok u =>
    left
    obtain ⟨groups, directory, hgroups, hdirectory⟩ := exists_groups_of_ok hresult
    obtain ⟨name, hname, rfl⟩ := exists_name hdirectory
    refine ⟨groups, name, hmaps groups hgroups, hname, hgroups, hdirectory, hresult,
      saved_of_saveBelow hmaps hgroups hdirectory hresult, ?_⟩
    rw [haccepted, hresult]
    simp only [Attempt.accepted, hgroups, hdirectory]
  | error e =>
    right
    have hmade : Attempt.mk i (w.stores i).codec r (.error e) ∈ (w.save i r).attempts := by
      rw [← hresult]
      exact List.mem_append_right _ List.mem_cons_self
    have hsystem : ∀ path cause, e ≠ .system path cause := by
      rintro path cause rfl
      exact hund _ hmade path cause rfl
    obtain ⟨hstate, hsignals⟩ := saveBelow_refused hresult hsystem
    refine ⟨e, hresult, hsignals, hstate, ?_⟩
    rw [haccepted, hresult]
    exact List.append_nil _

/-! ## §4. What a history keeps. -/

/-- The stores share their base, and the files below it hold what was
accepted. -/
structure Keeps (base : String) (w : World) : Prop where
  stores : ∀ i, (w.stores i).base = base ∧ ∀ r, (w.stores i).codec.MapsGroups r
  files : w.Undisturbed → Kept base w.tree (w.accepted base)

variable {base : String} {w : World}

theorem stores_save (i : Nat) (r : Record) (j : Nat) :
    ((w.save i r).stores j).base = (w.stores j).base ∧
      ((w.save i r).stores j).codec = (w.stores j).codec := by
  by_cases hj : j = i
  · rw [hj, stores_save_self]
    exact ⟨rfl, rfl⟩
  · have hother : (w.save i r).stores j = w.stores j := if_neg hj
    rw [hother]
    exact ⟨rfl, rfl⟩

theorem Keeps.save (h : Keeps base w) (i : Nat) (r : Record) : Keeps base (w.save i r) := by
  refine ⟨?_, ?_⟩
  · intro j
    obtain ⟨hbase, hcodec⟩ := stores_save (w := w) i r j
    rw [hbase, hcodec]
    exact h.stores j
  · intro hund
    obtain ⟨hbase, hmaps⟩ := h.stores i
    have hkept := h.files hund.of_save
    rcases save_cases hbase (hmaps r) hund with ⟨groups, name, htook⟩ | ⟨e, hrefused⟩
    · rw [htook.accepted]
      exact hkept.saved htook.plain htook.sorted htook.saved
    · rw [hrefused.accepted, hrefused.tree]
      exact hkept

/-- **What the files hold is kept along every history.** -/
theorem Keeps.run (h : Keeps base w) (calls : List Call) : Keeps base (w.run calls) :=
  run_induction (S := fun _ => True) (fun _ i r _ h => h.save i r) (fun _ _ => trivial) h

end World

end ReportStore
