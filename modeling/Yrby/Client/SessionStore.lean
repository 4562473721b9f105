import Mathlib.Data.List.Nodup
import Yrby.Client.SessionLifecycle

/-!
# The store of document sessions

`Books` is what the store keeps about its sessions and leases, with the leases whose abort handlers
run (`running`) and those that a waiting loop is still to release (`due`).  Together with `Local`
for every session it is preserved by every stretch of code, in whatever order the environment calls
the store, its sessions and the providers, and lets handlers come back.  `Safe` is what follows for
the sessions and their leases in every state reached.
-/

namespace Yrby

open Reentrant

namespace DocumentSession

/-! ## Notes of one session in a trace -/

section NotesOf

variable {id j : ℕ} {t u : List Event}

@[simp] lemma notesOf_append : notesOf id (t ++ u) = notesOf id t ++ notesOf id u := by
  simp [notesOf]

@[simp] lemma notesOf_nil : notesOf id [] = [] := rfl

@[simp] lemma notesOf_map (notes : List Note) : notesOf id (notes.map (.session id)) = notes := by
  induction notes with
  | nil => rfl
  | cons n ns ih => simp [notesOf]

lemma notesOf_map_of_ne (h : j ≠ id) (notes : List Note) :
    notesOf id (notes.map (.session j)) = [] := by
  simp [notesOf, h]

@[simp] lemma notesOf_acquired (lease session : ℕ) (phase : Phase) :
    notesOf id [.acquired lease session phase] = [] := rfl

end NotesOf

/-! ## The books of a store -/

/-- What a store keeps about its sessions and leases. -/
structure Books (st : Store) (trace : List Event) (running due : List LeaseId) : Prop where
  silent : ∀ id : ℕ, st.sessions.length ≤ id → notesOf id trace = []
  /-- The map holds the unclosed sessions under their keys. -/
  live : ∀ (key : Key) (id : ℕ), (key, id) ∈ st.live ↔
    ∃ s : Session, st.sessions[id]? = some s ∧ s.descriptor.key = key ∧ s.phase ≠ .closed
  nodup : (st.live.map Prod.fst).Nodup
  /-- A session's leases are its own; those that are aborted are being released. -/
  owned : ∀ (id : ℕ) (s : Session) (l : LeaseId), st.sessions[id]? = some s → l ∈ s.leases →
    ∃ aborted : Bool, st.leases[l]? = some ⟨id, aborted⟩ ∧ (aborted = true → l ∈ running)
  running : ∀ l ∈ running, ∃ id, st.leases[l]? = some ⟨id, true⟩
  held : ∀ (id : ℕ) (l : LeaseId), st.leases[l]? = some ⟨id, false⟩ →
    ∃ s : Session, st.sessions[id]? = some s ∧ l ∈ s.leases
  retiring : ∀ (id : ℕ) (s : Session) (l : LeaseId), st.sessions[id]? = some s →
    l ∈ s.retiring.getD [] → l < st.leases.length
  /-- What a settle was to release is aborted, or is still to be released. -/
  released : ∀ (id : ℕ) (phase : Phase) (releases : List LeaseId) (l : LeaseId),
    .settles phase releases ∈ notesOf id trace → l ∈ releases →
    l < st.leases.length ∧ (l ∈ due ∨ ∀ owner, st.leases[l]? ≠ some ⟨owner, false⟩)
  acquired : ∀ (l : LeaseId) (id : ℕ) (phase : Phase),
    .acquired l id phase ∈ trace → phase ≠ .closed

section Update

variable {st : Store} {trace : List Event} {running running' due due' : List LeaseId} {id : ℕ}
  {s s' : Session} {new : List Note} {live' : List (Key × ℕ)} {leases' : List Lease}

lemma getElem?_set_eq {id j : ℕ} {t : Session} {sessions : List Session}
    (hs : sessions[id]? = some s) (h : (sessions.set id s')[j]? = some t) :
    (j = id ∧ t = s') ∨ (j ≠ id ∧ sessions[j]? = some t) := by
  by_cases hj : j = id
  · subst hj
    have hlt : j < sessions.length := (List.getElem?_eq_some_iff.mp hs).1
    rw [List.getElem?_set_self hlt] at h
    exact .inl ⟨rfl, (Option.some.inj h).symm⟩
  · rw [List.getElem?_set_ne (Ne.symm hj)] at h
    exact .inr ⟨hj, h⟩

/-- The unreleased leases of one session and those of the others. -/
lemma Books.held_cases (h : Books st trace running due) (hs : st.sessions[id]? = some s) (j : ℕ)
    (l : LeaseId) (hl : st.leases[l]? = some ⟨j, false⟩) :
    (j = id ∧ l ∈ s.leases) ∨ (j ≠ id ∧ st.leases[l]? = some ⟨j, false⟩) := by
  by_cases hj : j = id
  · subst hj
    obtain ⟨t, ht, hmem⟩ := h.held j l hl
    rw [hs] at ht
    exact .inl ⟨rfl, Option.some.inj ht ▸ hmem⟩
  · exact .inr ⟨hj, hl⟩

/-- One session changes, with its notes and its leases. -/
lemma Books.update (h : Books st trace running due) (hs : st.sessions[id]? = some s)
    (hlive : ∀ key j, (key, j) ∈ live' ↔
      (j ≠ id ∧ (key, j) ∈ st.live) ∨ (j = id ∧ s'.descriptor.key = key ∧ s'.phase ≠ .closed))
    (hnodup : (live'.map Prod.fst).Nodup)
    (hkept : ∀ (l : LeaseId) (lease : Lease), st.leases[l]? = some lease → leases'[l]? = some lease)
    (howned : ∀ l ∈ s'.leases,
      ∃ aborted, leases'[l]? = some ⟨id, aborted⟩ ∧ (aborted = true → l ∈ running'))
    (hheld : ∀ (j : ℕ) (l : LeaseId), leases'[l]? = some ⟨j, false⟩ →
      (j = id ∧ l ∈ s'.leases) ∨ (j ≠ id ∧ st.leases[l]? = some ⟨j, false⟩))
    (hsub : running' ⊆ running)
    (hrunning : ∀ l ∈ running, l ∈ running' ∨ ∃ aborted, st.leases[l]? = some ⟨id, aborted⟩)
    (hretiring : ∀ l ∈ s'.retiring.getD [], l < leases'.length)
    (hdue : due ⊆ due')
    (hsettles : ∀ phase releases, .settles phase releases ∈ new → ∀ l ∈ releases,
      l < leases'.length ∧ l ∈ due') :
    Books { sessions := st.sessions.set id s', live := live', leases := leases' }
      (trace ++ new.map (.session id)) running' due' := by
  have hlength : st.leases.length ≤ leases'.length := by
    by_contra hlt
    have hlast : leases'.length < st.leases.length := by omega
    have kept := hkept leases'.length _ (List.getElem?_eq_getElem hlast)
    simp at kept
  have hid : id < st.sessions.length := (List.getElem?_eq_some_iff.mp hs).1
  refine ⟨?_, ?_, hnodup, ?_, ?_, ?_, ?_, ?_, ?_⟩
  · intro j hj
    rw [List.length_set] at hj
    have hne : id ≠ j := by omega
    rw [notesOf_append, h.silent j hj, notesOf_map_of_ne hne, List.append_nil]
  · intro key j
    rw [hlive]
    by_cases hj : j = id
    · subst hj
      simp [List.getElem?_set_self hid]
    · simp [hj, List.getElem?_set_ne (Ne.symm hj), h.live]
  · intro j t l ht hl
    rcases getElem?_set_eq hs ht with ⟨rfl, rfl⟩ | ⟨hj, ht⟩
    · exact howned l hl
    · obtain ⟨aborted, hlease, hrun⟩ := h.owned j t l ht hl
      refine ⟨aborted, hkept l _ hlease, fun hab => ?_⟩
      rcases hrunning l (hrun hab) with still | ⟨aborted', mine⟩
      · exact still
      · rw [hlease] at mine
        have same : j = id := by simpa using congrArg (Option.map Lease.session) mine
        exact absurd same hj
  · intro l hl
    obtain ⟨j, hlease⟩ := h.running l (hsub hl)
    exact ⟨j, hkept l _ hlease⟩
  · intro j l hl
    rcases hheld j l hl with ⟨rfl, hmem⟩ | ⟨hj, hold⟩
    · exact ⟨s', List.getElem?_set_self hid, hmem⟩
    · obtain ⟨t, ht, hmem⟩ := h.held j l hold
      exact ⟨t, by rw [List.getElem?_set_ne (Ne.symm hj)]; exact ht, hmem⟩
  · intro j t l ht hl
    rcases getElem?_set_eq hs ht with ⟨rfl, rfl⟩ | ⟨hj, ht⟩
    · exact hretiring l hl
    · exact Nat.lt_of_lt_of_le (h.retiring j t l ht hl) hlength
  · intro j phase releases l hmem hl
    rw [notesOf_append, List.mem_append] at hmem
    rcases hmem with old | new'
    · obtain ⟨hlt, hdone⟩ := h.released j phase releases l old hl
      refine ⟨Nat.lt_of_lt_of_le hlt hlength, hdone.imp (fun hd => hdue hd) ?_⟩
      intro aborted owner hlease
      rw [hkept l _ (List.getElem?_eq_getElem hlt)] at hlease
      exact aborted owner (by rw [← hlease, List.getElem?_eq_getElem hlt])
    · by_cases hj : id = j
      · subst hj
        rw [notesOf_map] at new'
        obtain ⟨hlt, hd⟩ := hsettles phase releases new' l hl
        exact ⟨hlt, .inl hd⟩
      · simp [notesOf_map_of_ne hj] at new'
  · intro l j phase hmem
    rw [List.mem_append] at hmem
    rcases hmem with old | new'
    · exact h.acquired l j phase old
    · simp at new'

end Update

/-! ## The invariant -/

/-- The books, and what holds of every session, but for one that is in the middle of a method. -/
structure Inv (but : Option ℕ) (st : Store) (trace : List Event) (running due : List LeaseId) :
    Prop extends Books st trace running due where
  sessions : ∀ (id : ℕ) (s : Session), st.sessions[id]? = some s →
    Told s (notesOf id trace) ∧ (some id ≠ but → Local s (notesOf id trace))

section Methods

variable {but : Option ℕ} {st : Store} {trace : List Event}
  {running running' due due' : List LeaseId} {id : ℕ} {s s' : Session} {new : List Note}
  {o : Session.Noted} {leases' : List Lease}

lemma Inv.weaken (h : Inv none st trace running due) : Inv but st trace running due :=
  ⟨h.toBooks, fun j t ht => ⟨(h.sessions j t ht).1, fun _ => (h.sessions j t ht).2 (by simp)⟩⟩

lemma Inv.local (h : Inv none st trace running due) (hs : st.sessions[id]? = some s) :
    Local s (notesOf id trace) :=
  (h.sessions id s hs).2 (by simp)

/-- The other sessions, while one changes. -/
lemma Inv.others (h : Inv (some id) st trace running due) (hs : st.sessions[id]? = some s)
    (but : Option ℕ)
    (hnew : Told s' (notesOf id trace ++ new) ∧
      (some id ≠ but → Local s' (notesOf id trace ++ new))) :
    ∀ (j : ℕ) (t : Session), (st.sessions.set id s')[j]? = some t →
      Told t (notesOf j (trace ++ new.map (.session id))) ∧
        (some j ≠ but → Local t (notesOf j (trace ++ new.map (.session id)))) := by
  intro j t ht
  rw [notesOf_append]
  rcases getElem?_set_eq hs ht with ⟨rfl, rfl⟩ | ⟨hj, ht⟩
  · rw [notesOf_map]
    exact hnew
  · have other := h.sessions j t ht
    rw [notesOf_map_of_ne (Ne.symm hj), List.append_nil]
    exact ⟨other.1, fun _ => other.2 (by simpa using hj)⟩

/-- A method of a session, which may have got other leases before. -/
lemma Inv.replace (h : Inv (some id) st trace running due) (hs : st.sessions[id]? = some s)
    (leases : List LeaseId) (ho : Sound Local { s with leases } (notesOf id trace) o)
    (hkept : ∀ (l : LeaseId) (lease : Lease), st.leases[l]? = some lease →
      leases'[l]? = some lease)
    (howned : ∀ l ∈ leases,
      ∃ aborted, leases'[l]? = some ⟨id, aborted⟩ ∧ (aborted = true → l ∈ running'))
    (hheld : ∀ (j : ℕ) (l : LeaseId), leases'[l]? = some ⟨j, false⟩ →
      (j = id ∧ l ∈ leases) ∨ (j ≠ id ∧ st.leases[l]? = some ⟨j, false⟩))
    (hsub : running' ⊆ running)
    (hrunning : ∀ l ∈ running, l ∈ running' ∨ ∃ aborted, st.leases[l]? = some ⟨id, aborted⟩) :
    Inv none { st with sessions := st.sessions.set id o.1, leases := leases' }
      (trace ++ o.2.map (.session id)) running' due := by
  refine ⟨?_, h.others hs none ⟨ho.keeps.told, fun _ => ho.keeps⟩⟩
  refine h.toBooks.update hs ?_ h.nodup hkept ?_ ?_ hsub hrunning ?_ (List.Subset.refl _) ?_
  · intro key j
    have mine : s.phase ≠ .closed ↔ o.1.phase ≠ .closed := (not_congr ho.near.closed).symm
    by_cases hj : j = id
    · subst hj
      simp [h.live, hs, ho.near.descriptor, mine]
    · simp [hj]
  · rw [ho.near.leases]
    exact howned
  · rw [ho.near.leases]
    exact hheld
  · intro l hl
    rcases ho.near.retiring l hl with old | now
    · have hlt := h.retiring id s l hs old
      exact (List.getElem?_eq_some_iff.mp (hkept l _ (List.getElem?_eq_getElem hlt))).1
    · obtain ⟨aborted, hlease, -⟩ := howned l now
      exact (List.getElem?_eq_some_iff.mp hlease).1
  · intro phase releases hmem
    exact absurd hmem (ho.calm phase releases)

/-- A method that leaves the leases alone. -/
lemma Inv.method (h : Inv none st trace running due) (hs : st.sessions[id]? = some s)
    (ho : Sound Local s (notesOf id trace) o) :
    Inv none { st with sessions := st.sessions.set id o.1 } (trace ++ o.2.map (.session id))
      running due := by
  exact h.weaken.replace hs s.leases ho (fun _ _ hl => hl) (fun l hl => h.owned id s l hs hl)
    (h.held_cases hs) (List.Subset.refl _) (fun l hl => .inl hl)

lemma Inv.modify (h : Inv none st trace running due) {f : Session → Session.Noted}
    (hf : ∀ t notes, Local t notes → Sound Local t notes (f t)) :
    Inv none (st.modify id f).1 (trace ++ (st.modify id f).2) running due := by
  unfold Store.modify
  cases hs : st.sessions[id]?
  case none => simpa using h
  case some t => exact h.method hs (hf t _ (h.local hs))

/-- The abort handlers of a lease have run, and its session lets it go. -/
lemma Inv.release {l : LeaseId} (h : Inv none st trace (l :: running) due) {lease : Lease}
    (hl : st.leases[l]? = some lease) :
    Inv none (st.modify lease.session fun s => s.onRelease l).1
      (trace ++ (st.modify lease.session fun s => s.onRelease l).2) running due := by
  obtain ⟨id, hab⟩ := h.running l List.mem_cons_self
  obtain rfl : (⟨id, true⟩ : Lease) = lease := Option.some.inj (hab.symm.trans hl)
  have running' : running ⊆ l :: running := List.subset_cons_self l running
  unfold Store.modify
  cases hs : st.sessions[id]?
  case none =>
    have owned : ∀ (j : ℕ) (t : Session) (x : LeaseId), st.sessions[j]? = some t → x ∈ t.leases →
        ∃ aborted, st.leases[x]? = some ⟨j, aborted⟩ ∧ (aborted = true → x ∈ running) := by
      intro j t x ht hx
      obtain ⟨aborted, hlease, hrun⟩ := h.owned j t x ht hx
      refine ⟨aborted, hlease, fun hab => ?_⟩
      rcases List.mem_cons.mp (hrun hab) with rfl | still
      · rw [hl] at hlease
        have same : id = j := congrArg Lease.session (Option.some.inj hlease)
        simp [← same, hs] at ht
      · exact still
    change Inv none st (trace ++ []) running due
    rw [List.append_nil]
    exact ⟨{ h.toBooks with
      owned := owned
      running := fun x hx => h.running x (running' hx) }, h.sessions⟩
  case some t =>
    refine h.weaken.replace hs (t.leases.filter (· ≠ l)) ((h.local hs).sound_onRelease l)
      (fun _ _ hl => hl) ?_ ?_ running' ?_
    · intro x hx
      obtain ⟨hmem, hne⟩ := List.mem_filter.mp hx
      obtain ⟨aborted, hlease, hrun⟩ := h.owned id t x hs hmem
      refine ⟨aborted, hlease, fun hab => ?_⟩
      rcases List.mem_cons.mp (hrun hab) with same | still
      · simp [same] at hne
      · exact still
    · intro j x hx
      have hne : x ≠ l := by
        rintro rfl
        simp [hl] at hx
      refine (h.held_cases hs j x hx).imp_left fun mine => ⟨mine.1, ?_⟩
      exact List.mem_filter.mpr ⟨mine.2, by simpa using hne⟩
    · intro x hx
      rcases List.mem_cons.mp hx with rfl | still
      · exact .inr ⟨true, hl⟩
      · exact .inl still

/-- An abort: the handlers of a lease start to run. -/
lemma Inv.abort {l : LeaseId} (h : Inv none st trace running (l :: due))
    (hl : st.leases[l]? = some ⟨id, false⟩) :
    Inv none { st with leases := st.leases.set l ⟨id, true⟩ } trace (l :: running) due := by
  have hlt : l < st.leases.length := (List.getElem?_eq_some_iff.mp hl).1
  have unaborted : ∀ (j x : ℕ), (st.leases.set l ⟨id, true⟩)[x]? = some ⟨j, false⟩ →
      x ≠ l ∧ st.leases[x]? = some ⟨j, false⟩ := by
    intro j x hx
    by_cases hne : x = l
    · subst hne
      simp [List.getElem?_set_self hlt] at hx
    · rw [List.getElem?_set_ne (Ne.symm hne)] at hx
      exact ⟨hne, hx⟩
  refine ⟨⟨h.silent, h.live, h.nodup, ?_, ?_, ?_, ?_, ?_, h.acquired⟩, h.sessions⟩
  · intro j t x ht hx
    obtain ⟨aborted, hlease, hrun⟩ := h.owned j t x ht hx
    by_cases hne : x = l
    · subst hne
      rw [hl] at hlease
      have same : id = j := congrArg Lease.session (Option.some.inj hlease)
      exact ⟨true, by simp [List.getElem?_set_self hlt, same], fun _ => List.mem_cons_self⟩
    · refine ⟨aborted, ?_, fun hab => List.mem_cons_of_mem _ (hrun hab)⟩
      rw [List.getElem?_set_ne (Ne.symm hne)]
      exact hlease
  · intro x hx
    by_cases hne : x = l
    · subst hne
      exact ⟨id, List.getElem?_set_self hlt⟩
    · obtain ⟨j, hlease⟩ := h.running x ((List.mem_cons.mp hx).resolve_left hne)
      exact ⟨j, by rw [List.getElem?_set_ne (Ne.symm hne)]; exact hlease⟩
  · intro j x hx
    exact h.held j x (unaborted j x hx).2
  · intro j t x ht hx
    rw [List.length_set]
    exact h.retiring j t x ht hx
  · intro j phase releases x hmem hx
    obtain ⟨hx, hdone⟩ := h.released j phase releases x hmem hx
    refine ⟨by rw [List.length_set]; exact hx, ?_⟩
    by_cases hne : x = l
    · exact .inr fun owner ho => (unaborted owner x ho).1 hne
    · rcases hdone with hd | hab
      · exact .inl ((List.mem_cons.mp hd).resolve_left hne)
      · exact .inr fun owner ho => hab owner (unaborted owner x ho).2

/-- A lease that is released already is passed over. -/
lemma Inv.skip {l : LeaseId} (h : Inv none st trace running (l :: due))
    (hl : ∀ owner, st.leases[l]? ≠ some ⟨owner, false⟩) : Inv none st trace running due := by
  refine ⟨{ h.toBooks with released := ?_ }, h.sessions⟩
  intro j phase releases x hmem hx
  obtain ⟨hx, hdone⟩ := h.released j phase releases x hmem hx
  refine ⟨hx, ?_⟩
  rcases hdone with hd | hab
  · rcases List.mem_cons.mp hd with rfl | still
    · exact .inr hl
    · exact .inl still
  · exact .inr hab

/-- A new lease of an unclosed session. -/
lemma Inv.attach (h : Inv (some id) st trace running due) (hs : st.sessions[id]? = some s)
    (failure : Option String) :
    Inv none
      { st with
        sessions := st.sessions.set id (s.attachLease st.leases.length failure).1
        leases := st.leases ++ [{ session := id }] }
      (trace ++ (s.attachLease st.leases.length failure).2.map (.session id)) running due := by
  have kept : ∀ (l : LeaseId) (lease : Lease), st.leases[l]? = some lease →
      (st.leases ++ [{ session := id }])[l]? = some lease := by
    intro l lease hl
    rw [List.getElem?_append_left (List.getElem?_eq_some_iff.mp hl).1]
    exact hl
  refine h.replace hs (s.leases ++ [st.leases.length])
    ((h.sessions id s hs).1.sound_attachLease st.leases.length failure) kept ?_ ?_
    (List.Subset.refl _) (fun l hl => .inl hl)
  · intro l hl
    rcases List.mem_append.mp hl with old | new
    · obtain ⟨aborted, hlease, hrun⟩ := h.owned id s l hs old
      exact ⟨aborted, kept l _ hlease, hrun⟩
    · obtain rfl := List.mem_singleton.mp new
      exact ⟨false, by simp, by simp⟩
  · intro j l hl
    by_cases hlt : l < st.leases.length
    · rw [List.getElem?_append_left hlt] at hl
      exact (h.held_cases hs j l hl).imp_left fun mine => ⟨mine.1, List.mem_append_left _ mine.2⟩
    · have hl' : l = st.leases.length := by
        have hbound := (List.getElem?_eq_some_iff.mp hl).1
        rw [List.length_append, List.length_singleton] at hbound
        exact Nat.le_antisymm (Nat.le_of_lt_succ hbound) (Nat.le_of_not_lt hlt)
      subst hl'
      have same : id = j := by simpa using hl
      exact .inl ⟨same.symm, by simp⟩

/-- A new session, which has no lease yet. -/
lemma Inv.create (h : Inv none st trace running due) (descriptor : ResolvedDescriptor)
    (hfree : ∀ j, (descriptor.key, j) ∉ st.live) :
    Inv (some st.sessions.length)
      { st with
        sessions := st.sessions ++ [Session.new descriptor]
        live := st.live ++ [(descriptor.key, st.sessions.length)] } trace running due := by
  have added : ∀ (j : ℕ) (t : Session), (st.sessions ++ [Session.new descriptor])[j]? = some t →
      (j = st.sessions.length ∧ t = Session.new descriptor) ∨ st.sessions[j]? = some t := by
    intro j t ht
    by_cases hlt : j < st.sessions.length
    · rw [List.getElem?_append_left hlt] at ht
      exact .inr ht
    · have hbound := (List.getElem?_eq_some_iff.mp ht).1
      rw [List.length_append, List.length_singleton] at hbound
      obtain rfl : j = st.sessions.length := by omega
      exact .inl ⟨rfl, by simpa [eq_comm] using ht⟩
  have kept : ∀ (j : ℕ) (t : Session), st.sessions[j]? = some t →
      (st.sessions ++ [Session.new descriptor])[j]? = some t := by
    intro j t ht
    rw [List.getElem?_append_left (List.getElem?_eq_some_iff.mp ht).1]
    exact ht
  refine ⟨⟨?_, ?_, ?_, ?_, h.running, ?_, ?_, h.released, h.acquired⟩, ?_⟩
  · intro j hj
    rw [List.length_append] at hj
    exact h.silent j (by omega)
  · intro key j
    constructor
    · intro hmem
      rcases List.mem_append.mp hmem with old | new
      · obtain ⟨t, ht, hkey, hopen⟩ := (h.live key j).mp old
        exact ⟨t, kept j t ht, hkey, hopen⟩
      · obtain ⟨rfl, rfl⟩ := Prod.mk.inj (List.mem_singleton.mp new)
        exact ⟨Session.new descriptor, by simp, rfl, by simp [Session.new]⟩
    · rintro ⟨t, ht, hkey, hopen⟩
      rcases added j t ht with ⟨rfl, rfl⟩ | old
      · have new : descriptor.key = key := hkey
        simp [new]
      · exact List.mem_append_left _ ((h.live key j).mpr ⟨t, old, hkey, hopen⟩)
  · rw [List.map_append, List.nodup_append]
    refine ⟨h.nodup, by simp, ?_⟩
    intro key hkey key' hkey' same
    obtain ⟨⟨k, j⟩, hmem, rfl⟩ := List.mem_map.mp hkey
    have new : key' = descriptor.key := by simpa using hkey'
    have same' : k = descriptor.key := same.trans new
    exact hfree j (same' ▸ hmem)
  · intro j t l ht hl
    rcases added j t ht with ⟨-, rfl⟩ | old
    · simp [Session.new] at hl
    · exact h.owned j t l old hl
  · intro j l hl
    obtain ⟨t, ht, hmem⟩ := h.held j l hl
    exact ⟨t, kept j t ht, hmem⟩
  · intro j t l ht hl
    rcases added j t ht with ⟨-, rfl⟩ | old
    · simp [Session.new] at hl
    · exact h.retiring j t l old hl
  · intro j t ht
    rcases added j t ht with ⟨rfl, rfl⟩ | old
    · rw [h.silent _ (Nat.le_refl _)]
      exact ⟨Told.new descriptor, fun hne => absurd rfl hne⟩
    · exact ⟨(h.sessions j t old).1, fun _ => (h.sessions j t old).2 (by simp)⟩

/-- The lease that `acquire` returns. -/
lemma Inv.acquired_event (h : Inv none st trace running due) (id lease : ℕ) {phase : Phase}
    (hphase : phase ≠ .closed) :
    Inv none st (trace ++ [.acquired lease id phase]) running due := by
  refine ⟨{ h.toBooks with silent := ?_, released := ?_, acquired := ?_ }, ?_⟩
  · simpa using h.silent
  · simpa using h.released
  · intro l j p hmem
    rcases List.mem_append.mp hmem with old | new
    · exact h.acquired l j p old
    · obtain ⟨-, -, rfl⟩ := Event.acquired.inj (List.mem_singleton.mp new)
      exact hphase
  · simpa using h.sessions

/-- A settle begins: the leases that it takes are due. -/
lemma Inv.begin (h : Inv none st trace running due) (hs : st.sessions[id]? = some s) :
    Inv (some id) { st with sessions := st.sessions.set id s.settle.1 }
      (trace ++ s.settle.2.map (.session id)) running
      ((if s.state = .blocked then s.retiring.getD [] else []) ++ due) := by
  have told := (h.local hs).told.settle
  refine ⟨?_, h.weaken.others hs (some id) ⟨told, fun hne => absurd rfl hne⟩⟩
  refine h.toBooks.update hs ?_ h.nodup (fun _ _ hl => hl) (fun l hl => h.owned id s l hs hl)
    (h.held_cases (s := s) hs) (List.Subset.refl _) (fun l hl => .inl hl) ?_
    (List.subset_append_right _ _) ?_
  · intro key j
    by_cases hj : j = id
    · subst hj
      simp [h.live, hs, Session.settle]
    · simp [hj]
  · intro l hl
    by_cases hb : s.state = .blocked
    · simp [Session.settle, hb] at hl
    · simp only [Session.settle, if_neg hb] at hl
      exact h.retiring id s l hs hl
  · intro phase releases hmem l hl
    obtain ⟨-, rfl⟩ := Note.settles.inj (List.mem_singleton.mp hmem)
    refine ⟨?_, List.mem_append_left _ hl⟩
    by_cases hb : s.state = .blocked
    · rw [if_pos hb] at hl
      exact h.retiring id s l hs hl
    · simp [if_neg hb] at hl

/-- A session closes and leaves the store, before its leases are released. -/
lemma Inv.close (h : Inv (some id) st trace running due) (hs : st.sessions[id]? = some s)
    {o : Session.Noted} (ho : s.close = some o) :
    Inv none
      { st with
        sessions := st.sessions.set id o.1
        live := st.live.filter fun entry => entry.1 ≠ s.descriptor.key }
      (trace ++ o.2.map (.session id)) running (s.leases ++ due) := by
  obtain ⟨s', ht, rfl⟩ := Option.map_eq_some_iff.mp ho
  obtain ⟨phase, hphase, hm, hp⟩ := Session.transition_eq_some ht
  obtain ⟨unclosed, rfl⟩ := Phase.on_close.mp hphase
  have told := (h.sessions id s hs).1
  have closed : Local s' (notesOf id trace ++ [.closed]) := by
    refine ⟨told.toLoose.close hm, ?_, ?_⟩
    · intro hopen
      simp [Session.state, hm.entered, Phase.state] at hopen
    · rw [hp]
      exact told.last
  have mine : (s.descriptor.key, id) ∈ st.live := (h.live _ _).mpr ⟨s, hs, rfl, unclosed⟩
  refine ⟨?_, h.others hs none ⟨closed.told, fun _ => closed⟩⟩
  refine h.toBooks.update hs ?_ ?_ (fun _ _ hl => hl) ?_ ?_ (List.Subset.refl _)
    (fun l hl => .inl hl) ?_
    (List.subset_append_right _ _) (by simp)
  · intro key j
    have alone (hmem : (key, j) ∈ st.live) : key ≠ s.descriptor.key ↔ j ≠ id := by
      constructor
      · rintro hkey rfl
        obtain ⟨t, ht', hkey', -⟩ := (h.live key j).mp hmem
        rw [hs] at ht'
        exact hkey (Option.some.inj ht' ▸ hkey'.symm)
      · rintro hj rfl
        have same := List.inj_on_of_nodup_map h.nodup hmem mine rfl
        exact hj (Prod.mk.inj same).2
    simp only [List.mem_filter, decide_eq_true_eq, hm.entered, ne_eq, not_true_eq_false, and_false,
      or_false]
    constructor
    · rintro ⟨hmem, hkey⟩
      exact ⟨(alone hmem).mp hkey, hmem⟩
    · rintro ⟨hj, hmem⟩
      exact ⟨hmem, (alone hmem).mpr hj⟩
  · exact (List.filter_sublist.map Prod.fst).nodup h.nodup
  · intro l hl
    rw [hm.leases] at hl
    exact h.owned id s l hs hl
  · rw [hm.leases]
    exact h.held_cases hs
  · intro l hl
    simp [hm.retiring] at hl

end Methods

/-! ## Stretches of code -/

/-- A stretch of code over the frames of a stack keeps the invariant. -/
def Keeps (stack : List Frame) (trace : List Event) (o : Out) : Prop :=
  Inv none o.state (trace ++ o.events) ((o.control.push stack).map Frame.lease)
    ((o.control.push stack).flatMap Frame.rest)

section Stretches

variable {st : Store} {trace : List Event} {stack : List Frame} {id : ℕ} {s : Session}

/-- The invariant between two stretches of code. -/
abbrev Rests (st : Store) (trace : List Event) (stack : List Frame) : Prop :=
  Inv none st trace (stack.map Frame.lease) (stack.flatMap Frame.rest)

lemma Keeps.after {events : List Event} {o : Out} (h : Keeps stack (trace ++ events) o) :
    Keeps stack trace (Store.after events o) := by
  simpa [Keeps, Store.after, List.append_assoc] using h

lemma Rests.unchanged {control : Control Frame} (h : Rests st trace stack)
    (hc : ∀ f, control ≠ .awaits f) : Keeps stack trace { state := st, control } := by
  cases control
  case awaits f => exact absurd rfl (hc f)
  all_goals
    unfold Keeps
    rw [List.append_nil]
    exact h

lemma Rests.run (h : Rests st trace stack) {f : Session → Session.Noted}
    (hf : ∀ t notes, Local t notes → Sound Local t notes (f t)) :
    Keeps stack trace (st.run id f) :=
  h.modify hf

lemma Rests.finish (h : Rests st trace stack) (next : Next) :
    Keeps stack trace (st.finish next) := by
  cases next
  case done => exact h.unchanged (by simp)
  case settle id => exact h.run fun t notes ht => ht.sound_settled
  case close id settling =>
    refine h.run fun t notes ht => ?_
    have destroyed := ht.sound_providerDestroy
    cases settling
    case false => exact destroyed
    case true =>
      have settled : Sound Local t notes
          (t.providerDestroy.1.settled.1, t.providerDestroy.2 ++ []) :=
        destroyed.trans destroyed.keeps.sound_settled
      rw [List.append_nil] at settled
      exact settled

/-- A loop over leases keeps the invariant, when these are due before it. -/
lemma releaseAll_keeps (next : Next) (ls : List LeaseId) {st : Store}
    (h : Inv none st trace (stack.map Frame.lease) (ls ++ stack.flatMap Frame.rest)) :
    Keeps stack trace (st.releaseAll next ls) := by
  induction ls with
  | nil => exact Rests.finish h next
  | cons l ls ih =>
    by_cases hl : ∃ id, st.leases[l]? = some ⟨id, false⟩
    · obtain ⟨id, hl⟩ := hl
      have aborted := h.abort hl
      have awaits : st.releaseAll next (l :: ls) =
          { state := { st with leases := st.leases.set l ⟨id, true⟩ }
            control := .awaits ⟨l, ls, next⟩ } := by
        simp [Store.releaseAll, hl]
      rw [awaits]
      unfold Keeps
      rw [List.append_nil]
      exact aborted
    · have released : ∀ owner, st.leases[l]? ≠ some ⟨owner, false⟩ := fun owner ho => hl ⟨owner, ho⟩
      have passes : st.releaseAll next (l :: ls) = st.releaseAll next ls := by
        rw [Store.releaseAll]
        split
        · next id hid => exact absurd hid (released id)
        · rfl
      rw [passes]
      exact ih (h.skip released)

lemma Rests.close (h : Inv (some id) st trace (stack.map Frame.lease) (stack.flatMap Frame.rest))
    (settling : Bool) (hopen : ∀ s, st.sessions[id]? = some s → s.close = none →
      Rests st trace stack) : Keeps stack trace (st.close id settling) := by
  unfold Store.close
  cases hs : st.sessions[id]?
  case none =>
    have rests : Rests st trace stack := by
      refine ⟨h.toBooks, fun j t ht => ⟨(h.sessions j t ht).1, fun _ => (h.sessions j t ht).2 ?_⟩⟩
      rintro ⟨rfl⟩
      simp [hs] at ht
    exact rests.unchanged (by simp)
  case some s =>
    cases hclose : s.close
    case none => simpa [hclose] using (hopen s hs hclose).finish _
    case some o =>
      have removed := h.close hs hclose
      simpa [hclose] using Keeps.after (releaseAll_keeps (.close id settling) s.leases removed)

/-- A queued settle runs. -/
lemma Rests.settle (h : Rests st trace stack) (id : ℕ) : Keeps stack trace (st.settle id) := by
  unfold Store.settle
  cases hs : st.sessions[id]?
  case none => exact h.unchanged (by simp)
  case some s =>
    by_cases hq : s.settleQueued = true
    · have hid : id < st.sessions.length := (List.getElem?_eq_some_iff.mp hs).1
      have begun : st.modify id Session.settle =
          ({ st with sessions := st.sessions.set id s.settle.1 },
            s.settle.2.map (.session id)) := by
        simp [Store.modify, hs]
      have began := h.begin hs
      have there : (st.sessions.set id s.settle.1)[id]? = some s.settle.1 :=
        List.getElem?_set_self hid
      have whole (hn : s.state = .open → s.needed = true) :
          Inv none { st with sessions := st.sessions.set id s.settle.1 }
            (trace ++ s.settle.2.map (.session id)) (stack.map Frame.lease)
            ((if s.state = .blocked then s.retiring.getD [] else []) ++
              stack.flatMap Frame.rest) := by
        refine ⟨began.toBooks, fun j t ht =>
          ⟨(began.sessions j t ht).1, fun _ => ?_⟩⟩
        by_cases hj : j = id
        · subst hj
          rw [there] at ht
          obtain rfl := Option.some.inj ht
          have told := (began.sessions j _ there).1
          exact ⟨told.toLoose, fun hopen _ => hn hopen, told.last⟩
        · exact (began.sessions j t ht).2 (by simpa using hj)
      simp only [hq, if_true, begun]
      refine Keeps.after ?_
      cases hstate : s.state
      case closed =>
        have rests := whole (by simp [hstate])
        rw [hstate, if_neg (by simp), List.nil_append] at rests
        exact Rests.finish rests (.settle id)
      case blocked =>
        have rests := whole (by simp [hstate])
        rw [if_pos hstate] at rests
        exact releaseAll_keeps (.settle id) (s.retiring.getD []) rests
      case «open» =>
        by_cases hn : s.needed = true
        · have rests := whole fun _ => hn
          rw [hstate, if_neg (by simp), List.nil_append] at rests
          simpa [hn] using Rests.finish rests (.settle id)
        · rw [hstate, if_neg (by simp), List.nil_append] at began
          have closes : Keeps stack (trace ++ s.settle.2.map (.session id))
              (Store.close { st with sessions := st.sessions.set id s.settle.1 } id true) := by
            refine Rests.close began true ?_
            intro t ht hclose
            obtain rfl := Option.some.inj (there.symm.trans ht)
            have unclosed : s.phase ≠ .closed := by
              intro hc
              simp [Session.state, hc, Phase.state] at hstate
            have closing : s.settle.1.phase.on .close = some .closed :=
              Phase.on_close.mpr ⟨unclosed, rfl⟩
            simp [Session.close, Session.transition, closing] at hclose
          simpa [hn] using closes
    · simp only [hq]
      exact h.unchanged (by simp)

/-- A lease of a session that is there. -/
lemma attach_keeps
    (h : Inv (some id) st trace (stack.map Frame.lease) (stack.flatMap Frame.rest))
    (hs : st.sessions[id]? = some s) (hopen : s.phase ≠ .closed) (failure : Option String) :
    Keeps stack trace (st.attach id failure) := by
  have hid : id < st.sessions.length := (List.getElem?_eq_some_iff.mp hs).1
  have told := (h.sessions id s hs).1
  have near := (told.sound_attachLease st.leases.length failure).near
  have attached := h.attach hs failure
  have unclosed : (s.attachLease st.leases.length failure).1.phase ≠ .closed :=
    fun hc => hopen (near.closed.mp hc)
  have returned := attached.acquired_event id st.leases.length unclosed
  have result : st.attach id failure =
      { state := { st with
          sessions := st.sessions.set id (s.attachLease st.leases.length failure).1
          leases := st.leases ++ [{ session := id }] }
        events := (s.attachLease st.leases.length failure).2.map (.session id) ++
          [.acquired st.leases.length id (s.attachLease st.leases.length failure).1.phase] } := by
    have mine := (List.getElem?_eq_some_iff.mp hs).2
    simp [Store.attach, Store.modify, hid, mine]
  rw [result]
  simpa [Keeps, Control.push, List.append_assoc] using returned

lemma lookup_eq_some_mem {key : Key} {live : List (Key × ℕ)} (h : live.lookup key = some id) :
    (key, id) ∈ live := by
  obtain ⟨front, back, rfl, -⟩ := List.lookup_eq_some_iff.mp h
  simp

lemma Rests.acquire (h : Rests st trace stack) (input : Descriptor) (failure : Option String) :
    Keeps stack trace (st.acquire input failure) := by
  unfold Store.acquire
  by_cases hempty : input.grant = "" ∨ input.name = ""
  · rw [if_pos hempty]
    exact h.unchanged (by simp)
  · rw [if_neg hempty]
    cases hlookup : st.live.lookup (resolve input).key
    case some id =>
      obtain ⟨s, hs, -, hopen⟩ := (h.live _ _).mp (lookup_eq_some_mem hlookup)
      have unclosed : s.state ≠ .closed := by
        intro hstate
        cases hp : s.phase <;> simp_all [Session.state, Phase.state]
      simpa [hs, unclosed, hlookup] using attach_keeps h.weaken hs hopen failure
    case none =>
      have free : ∀ j, ((resolve input).key, j) ∉ st.live := by
        intro j hmem
        have other := List.lookup_eq_none_iff.mp hlookup _ hmem
        simp at other
      have created := h.create (resolve input) free
      have there : (st.sessions ++ [Session.new (resolve input)])[st.sessions.length]? =
          some (Session.new (resolve input)) := by simp
      simpa [hlookup] using attach_keeps created there (by simp [Session.new]) failure

lemma call_keeps (h : Rests st trace stack) (c : Call) : Keeps stack trace (call st c) := by
  cases c
  case acquire input failure => exact h.acquire input failure
  case release lease =>
    refine releaseAll_keeps .done [lease] ⟨{ h.toBooks with released := ?_ }, h.sessions⟩
    intro j phase releases l hmem hl
    obtain ⟨hlt, hdone⟩ := h.released j phase releases l hmem hl
    exact ⟨hlt, hdone.imp_left fun hd => List.mem_append_right _ hd⟩
  case retry id failure => exact h.run fun t notes ht => ht.sound_retry failure
  case discard id => exact Rests.close h.weaken false fun _ _ _ => h
  case edit id => exact h.run fun t notes ht => ht.sound_edit
  case cable id attempt event => exact h.run fun t notes ht => ht.sound_cable attempt event
  case providerError id error => exact h.run fun t notes ht => ht.sound_providerError error
  case refreshed id attempt result failure =>
    exact h.run fun t notes ht => ht.sound_onRefreshed attempt result failure
  case settle id => exact h.settle id

end Stretches

/-! ## Runs -/

/-! ## Runs -/

lemma back_keeps {st : Store} {trace : List Event} {f : Frame} {stack : List Frame} {o : Out}
    (h : Rests st trace (f :: stack)) (ho : back st f () = some o) : Keeps stack trace o := by
  obtain ⟨lease, hl, rfl⟩ := Option.map_eq_some_iff.mp ho
  exact Keeps.after (releaseAll_keeps f.next f.rest (h.release hl))

/-- The invariant of a configuration. -/
def Sane (c : Cfg) : Prop := Rests c.state c.trace c.stack

lemma Sane.init : Sane init := by
  refine ⟨⟨?_, ?_, ?_, ?_, ?_, ?_, ?_, ?_, ?_⟩, ?_⟩ <;> simp [DocumentSession.init]

lemma Sane.step {c c' : Cfg} (h : Sane c) {m : Move Call Unit} (hm : machine.step c m = some c') :
    Sane c' := by
  cases m
  case call x =>
    obtain rfl := Option.some.inj hm
    exact call_keeps h x
  case back r =>
    obtain ⟨f, rest, o, hst, ho, rfl⟩ := Machine.step_back_eq_some.mp hm
    unfold Sane at h
    rw [hst] at h
    exact back_keeps h ho

theorem sane_of_run {moves : List (Move Call Unit)} {c : Cfg}
    (h : Transition.run machine.step init moves = some c) : Sane c :=
  Transition.run_invariant (fun _ _ _ hs hstep => Sane.step hs hstep) Sane.init h

/-! ## Which moves close a session -/

/-- The session is there and not closed. -/
def Open (st : Store) (id : ℕ) : Prop := ∃ s, st.sessions[id]? = some s ∧ s.phase ≠ .closed

section Closing

variable {st : Store} {id j : ℕ} {s s' : Session}

lemma Session.onStatus_closed (s : Session) (status : Status) :
    (s.onStatus status).phase = .closed ↔ s.phase = .closed := by
  by_cases hopen : s.state = .open
  · by_cases hconnected : status = .connected ∨ status = .synced
    · cases ht : s.transition .accept none
      case none => simp [Session.onStatus, hopen, hconnected, ht, Session.changed]
      case some s' =>
        obtain ⟨phase, hphase, hm, -⟩ := Session.transition_eq_some ht
        obtain ⟨hr, rfl⟩ := Phase.on_accept.mp hphase
        simp [Session.onStatus, hopen, hconnected, ht, Session.changed, hm.entered, hr]
    · simp [Session.onStatus, hopen, hconnected, Session.changed]
  · simp [Session.onStatus, hopen]

lemma Session.providerDestroy_closed (s : Session) :
    s.providerDestroy.1.phase = .closed ↔ s.phase = .closed := by
  unfold Session.providerDestroy Session.refreshed Session.refreshStatus
  split_ifs
  · rfl
  · rfl
  · exact Session.onStatus_closed _ _

lemma Open.set {sessions : List Session} (h : Open st id) (hs : st.sessions[j]? = some s)
    (hsessions : sessions = st.sessions.set j s')
    (hs' : j = id → s.phase ≠ .closed → s'.phase ≠ .closed) {live : List (Key × ℕ)}
    {leases : List Lease} : Open { sessions, live, leases } id := by
  obtain ⟨t, ht, hopen⟩ := h
  subst hsessions
  by_cases hj : j = id
  · subst hj
    rw [hs] at ht
    obtain rfl := Option.some.inj ht
    exact ⟨s', List.getElem?_set_self (List.getElem?_eq_some_iff.mp hs).1, hs' rfl hopen⟩
  · exact ⟨t, by rw [List.getElem?_set_ne hj]; exact ht, hopen⟩

lemma Open.modify (h : Open st id) {f : Session → Session.Noted}
    (hf : ∀ t, st.sessions[j]? = some t → t.phase ≠ .closed → (f t).1.phase ≠ .closed) :
    Open (st.modify j f).1 id := by
  unfold Store.modify
  cases hs : st.sessions[j]?
  case none => exact h
  case some t => exact h.set hs rfl fun _ => hf t hs

lemma Open.finish (h : Open st id) (next : Next) : Open (st.finish next).state id := by
  cases next
  case done => exact h
  case settle j => exact h.modify fun t _ ht => ht
  case close j settling =>
    refine h.modify fun t _ ht => ?_
    have destroyed := mt t.providerDestroy_closed.mp ht
    cases settling
    case false => exact destroyed
    case true => exact destroyed

lemma Open.releaseAll (next : Next) (ls : List LeaseId) {st : Store} (h : Open st id) :
    Open (st.releaseAll next ls).state id := by
  induction ls with
  | nil => exact h.finish next
  | cons l ls ih =>
    rw [Store.releaseAll]
    split
    · exact h
    · exact ih

lemma Open.close (h : Open st id) (hj : j ≠ id) (settling : Bool) :
    Open (st.close j settling).state id := by
  unfold Store.close
  cases hs : st.sessions[j]?
  case none => exact h
  case some s =>
    cases hclose : s.close
    case none => simpa [hclose] using h.finish _
    case some o =>
      simp only [Store.after, hclose]
      exact Open.releaseAll _ _ (h.set hs rfl fun same => absurd same hj)

lemma Open.attach {trace : List Event} {running waiting : List LeaseId}
    (h : Inv (some j) st trace running waiting) (hid : Open st id) (failure : Option String) :
    Open (st.attach j failure).state id := by
  have there : Open { st with leases := st.leases ++ [{ session := j }] } id := hid
  refine there.modify fun t ht hopen => ?_
  have near := ((h.sessions j t ht).1.sound_attachLease st.leases.length failure).near
  exact mt near.closed.mp hopen

lemma Open.acquire {trace : List Event} {running waiting : List LeaseId}
    (h : Inv none st trace running waiting) (hid : Open st id) (input : Descriptor)
    (failure : Option String) : Open (st.acquire input failure).state id := by
  unfold Store.acquire
  by_cases hempty : input.grant = "" ∨ input.name = ""
  · rw [if_pos hempty]
    exact hid
  · rw [if_neg hempty]
    cases hlookup : st.live.lookup (resolve input).key
    case some j =>
      simp only [hlookup]
      split_ifs
      · exact hid
      · exact Open.attach h.weaken hid failure
    case none =>
      have free : ∀ j, ((resolve input).key, j) ∉ st.live := by
        intro j hmem
        have other := List.lookup_eq_none_iff.mp hlookup _ hmem
        simp at other
      obtain ⟨t, ht, hopen⟩ := hid
      have there : (st.sessions ++ [Session.new (resolve input)])[id]? = some t := by
        rw [List.getElem?_append_left (List.getElem?_eq_some_iff.mp ht).1]
        exact ht
      simp only [hlookup]
      exact Open.attach (h.create (resolve input) free) ⟨t, there, hopen⟩ failure

/-- A settle closes no session that is needed. -/
lemma Open.settle (hid : Open st id)
    (hneeded : j = id → ∀ s, st.sessions[id]? = some s → s.needed = true) :
    Open (st.settle j).state id := by
  unfold Store.settle
  cases hs : st.sessions[j]?
  case none => exact hid
  case some s =>
    by_cases hq : s.settleQueued = true
    · have begun : Open (st.modify j Session.settle).1 id := hid.modify fun t _ ht => ht
      simp only [hq, if_true, Store.after]
      cases hstate : s.state
      case closed => exact begun.finish _
      case blocked => exact begun.releaseAll _ _
      case «open» =>
        by_cases hn : s.needed = true
        · simpa [hn] using begun.finish (.settle j)
        · have hj : j ≠ id := by
            rintro rfl
            exact hn (hneeded rfl s hs)
          simpa [hn] using begun.close hj true
    · simpa [hq] using hid

lemma call_open {trace : List Event} {running waiting : List LeaseId}
    (h : Inv none st trace running waiting) (c : Call) (hid : Open st id)
    (hdiscard : c ≠ .discard id)
    (hneeded : c = .settle id → ∀ s, st.sessions[id]? = some s → s.needed = true) :
    Open (call st c).state id := by
  have run {k : ℕ} {f : Session → Session.Noted}
      (hf : ∀ t notes, Local t notes → Sound Local t notes (f t)) :
      Open (st.run k f).state id :=
    hid.modify fun t ht hopen => mt (hf t _ (h.local ht)).near.closed.mp hopen
  cases c
  case acquire input failure => exact hid.acquire h input failure
  case release lease => exact Open.releaseAll _ _ hid
  case retry k failure => exact run fun t notes ht => ht.sound_retry failure
  case discard k => exact hid.close (fun hk => hdiscard (hk ▸ rfl)) false
  case edit k => exact run fun t notes ht => ht.sound_edit
  case cable k attempt event => exact run fun t notes ht => ht.sound_cable attempt event
  case providerError k error => exact run fun t notes ht => ht.sound_providerError error
  case refreshed k attempt result failure =>
    exact run fun t notes ht => ht.sound_onRefreshed attempt result failure
  case settle k => exact hid.settle fun hk => hneeded (hk ▸ rfl)

lemma back_open {f : Frame} {o : Out} (ho : back st f () = some o) (hid : Open st id) :
    Open o.state id := by
  obtain ⟨lease, hl, rfl⟩ := Option.map_eq_some_iff.mp ho
  refine Open.releaseAll _ _ (hid.modify fun t _ ht => ?_)
  unfold Session.onRelease
  split_ifs
  · exact ht
  · exact ht

end Closing

/-! ## Lifecycle safety -/

/-- What holds in a configuration of a store and its sessions. -/
structure Safe (c : Cfg) : Prop where
  /-- A move that closes a session discards it, or the session has no unreleased lease and no
  unacknowledged edit. -/
  closes : ∀ (m : Move Call Unit) (c' : Cfg) (id : ℕ) (s s' : Session),
    machine.step c m = some c' → c.state.sessions[id]? = some s → s.state ≠ .closed →
    c'.state.sessions[id]? = some s' → s'.state = .closed →
    m = .call (.discard id) ∨
      ((∀ l : LeaseId, c.state.leases[l]? ≠ some ⟨id, false⟩) ∧ s.provider.hasPending = false)
  /-- An open session with no queued settle has a lease or pending work, once no handler runs. -/
  needed : c.stack = [] → ∀ (id : ℕ) (s : Session), c.state.sessions[id]? = some s →
    s.settleQueued = false → s.state = .open →
    (∃ l : LeaseId, c.state.leases[l]? = some ⟨id, false⟩) ∨ s.provider.hasPending = true
  /-- A document has one unclosed session. -/
  unique : ∀ (i j : ℕ) (s t : Session), c.state.sessions[i]? = some s →
    c.state.sessions[j]? = some t → s.state ≠ .closed → t.state ≠ .closed →
    s.descriptor.key = t.descriptor.key → i = j
  /-- `acquire` returns no lease of a closed session. -/
  acquired : ∀ (l : LeaseId) (id : ℕ) (phase : Phase),
    .acquired l id phase ∈ c.trace → phase ≠ .closed
  /-- Between two fetches the server accepts a connection, or `retry` takes effect. -/
  fetches : ∀ (id : ℕ) (pre mid post : List Note) (a b : ℕ),
    notesOf id c.trace = pre ++ .fetch a :: mid ++ .fetch b :: post →
    .accepted ∈ mid ∨ .retried ∈ mid
  /-- A settle in the phase `blocked` releases leases only that were held when the session blocked.
  All of these are aborted, or the loop that releases them waits for the handlers of another. -/
  releases : ∀ (id : ℕ) (pre post : List Note) (releases : List LeaseId),
    notesOf id c.trace = pre ++ .settles .blocked releases :: post →
    ∃ held ran, blocking pre = some (held, ran) ∧ (releases = if ran then [] else held) ∧
      ∀ l ∈ held, (∃ owner, c.state.leases[l]? = some ⟨owner, true⟩) ∨ ∃ f ∈ c.stack, l ∈ f.rest
  /-- The result of a fetch changes nothing once the session was retried, blocked or closed. -/
  late : ∀ (id : ℕ) (pre post : List Note) (a : ℕ) (result : Except String String)
    (failure : Option String), notesOf id c.trace = pre ++ .fetch a :: post →
    (∃ n ∈ post, n.interrupts = true) →
    machine.step c (.call (.refreshed id a result failure)) = some c

lemma state_eq_closed {s : Session} : s.state = .closed ↔ s.phase = .closed := by
  cases hp : s.phase <;> simp [Session.state, Phase.state, hp]

section Safety

variable {c : Cfg}

lemma Sane.closes (h : Sane c) {m : Move Call Unit} {c' : Cfg} {id : ℕ} {s s' : Session}
    (hm : machine.step c m = some c') (hs : c.state.sessions[id]? = some s)
    (hopen : s.state ≠ .closed) (hs' : c'.state.sessions[id]? = some s')
    (hclosed : s'.state = .closed) :
    m = .call (.discard id) ∨
      ((∀ l : LeaseId, c.state.leases[l]? ≠ some ⟨id, false⟩) ∧ s.provider.hasPending = false) := by
  by_contra hno
  push Not at hno
  obtain ⟨hdiscard, hneeded⟩ := hno
  have hid : Open c.state id := ⟨s, hs, mt state_eq_closed.mpr hopen⟩
  have needed : s.needed = true := by
    by_cases hl : ∀ l : LeaseId, c.state.leases[l]? ≠ some ⟨id, false⟩
    · have pending := hneeded hl
      simp at pending
      simp [Session.needed, pending]
    · push Not at hl
      obtain ⟨l, hl⟩ := hl
      obtain ⟨t, ht, hmem⟩ := h.held id l hl
      obtain rfl := Option.some.inj (hs.symm.trans ht)
      have some : s.leases ≠ [] := List.ne_nil_of_mem hmem
      simp [Session.needed, some]
  have stays : Open c'.state id := by
    cases m
    case call x =>
      obtain rfl := Option.some.inj hm
      refine call_open h x hid (fun hx => hdiscard (hx ▸ rfl)) ?_
      intro _ t ht
      obtain rfl := Option.some.inj (hs.symm.trans ht)
      exact needed
    case back r =>
      obtain ⟨f, rest, o, hst, ho, rfl⟩ := Machine.step_back_eq_some.mp hm
      exact back_open ho hid
  obtain ⟨t, ht, unclosed⟩ := stays
  obtain rfl := Option.some.inj (hs'.symm.trans ht)
  exact unclosed (state_eq_closed.mp hclosed)

lemma Sane.needed (h : Sane c) (hstack : c.stack = []) {id : ℕ} {s : Session}
    (hs : c.state.sessions[id]? = some s) (hq : s.settleQueued = false) (hopen : s.state = .open) :
    (∃ l : LeaseId, c.state.leases[l]? = some ⟨id, false⟩) ∨ s.provider.hasPending = true := by
  have needed := (h.local hs).needed hopen hq
  by_cases hp : s.provider.hasPending = true
  · exact .inr hp
  · have held : s.leases ≠ [] := by
      intro none
      simp [Session.needed, none, hp] at needed
    obtain ⟨l, hl⟩ := List.exists_mem_of_ne_nil _ held
    obtain ⟨aborted, hlease, running⟩ := h.owned id s l hs hl
    cases aborted
    case false => exact .inl ⟨l, hlease⟩
    case true => simp [hstack] at running

lemma Sane.unique (h : Sane c) {i j : ℕ} {s t : Session} (hs : c.state.sessions[i]? = some s)
    (ht : c.state.sessions[j]? = some t) (hopen : s.state ≠ .closed) (hopen' : t.state ≠ .closed)
    (hkey : s.descriptor.key = t.descriptor.key) : i = j := by
  have first := (h.live _ i).mpr ⟨s, hs, rfl, mt state_eq_closed.mpr hopen⟩
  have second := (h.live _ j).mpr ⟨t, ht, rfl, mt state_eq_closed.mpr hopen'⟩
  exact (Prod.mk.inj (List.inj_on_of_nodup_map h.nodup first second hkey)).2

lemma Sane.aborted (h : Sane c) {id : ℕ} {phase : Phase} {releases : List LeaseId} {l : LeaseId}
    (hnote : .settles phase releases ∈ notesOf id c.trace) (hl : l ∈ releases) :
    (∃ owner, c.state.leases[l]? = some ⟨owner, true⟩) ∨ ∃ f ∈ c.stack, l ∈ f.rest := by
  obtain ⟨hlt, hdone⟩ := h.released id phase releases l hnote hl
  rcases hdone with hd | unreleased
  · exact .inr (List.mem_flatMap.mp hd)
  · have hlease := List.getElem?_eq_getElem hlt
    rcases hvalue : c.state.leases[l] with ⟨owner, aborted⟩
    rw [hvalue] at hlease
    cases aborted
    case false => exact absurd hlease (unreleased owner)
    case true => exact .inl ⟨owner, hlease⟩

/-- A session that has notes is there. -/
lemma Sane.session (h : Sane c) (id : ℕ) (hnotes : notesOf id c.trace ≠ []) :
    ∃ s, c.state.sessions[id]? = some s ∧ Local s (notesOf id c.trace) := by
  have hlt : id < c.state.sessions.length := by
    by_contra hge
    exact hnotes (h.silent id (Nat.le_of_not_lt hge))
  exact ⟨_, List.getElem?_eq_getElem hlt, h.local (List.getElem?_eq_getElem hlt)⟩

lemma Sane.releases (h : Sane c) {id : ℕ} {pre post : List Note} {releases : List LeaseId}
    (hnotes : notesOf id c.trace = pre ++ .settles .blocked releases :: post) :
    ∃ held ran, blocking pre = some (held, ran) ∧ (releases = if ran then [] else held) ∧
      ∀ l ∈ held, (∃ owner, c.state.leases[l]? = some ⟨owner, true⟩) ∨
        ∃ f ∈ c.stack, l ∈ f.rest := by
  obtain ⟨s, hs, hlocal⟩ := h.session id (by simp [hnotes])
  have history := hlocal.history
  obtain ⟨hphase, hreleases⟩ := history.settles pre .blocked releases post hnotes
  obtain ⟨⟨held, ran⟩, hheld⟩ := Option.isSome_iff_exists.mp (hphase.mp rfl)
  rw [hheld] at hreleases
  refine ⟨held, ran, hheld, ?_, ?_⟩
  · rw [hreleases]
    cases ran <;> rfl
  · intro l hl
    cases ran
    case false =>
      have mine : .settles .blocked held ∈ notesOf id c.trace := by
        rw [hnotes, hreleases]
        simp [due]
      exact h.aborted mine hl
    case true =>
      rw [hnotes] at history
      obtain ⟨phase, earlier⟩ := history.init.released hheld
      have mine : .settles phase held ∈ notesOf id c.trace := by
        rw [hnotes]
        exact List.mem_append_left _ earlier
      exact h.aborted mine hl

lemma Sane.late (h : Sane c) {id : ℕ} {pre post : List Note} {a : ℕ}
    (result : Except String String) (failure : Option String)
    (hnotes : notesOf id c.trace = pre ++ .fetch a :: post)
    (hover : ∃ n ∈ post, n.interrupts = true) :
    machine.step c (.call (.refreshed id a result failure)) = some c := by
  obtain ⟨s, hs, hlocal⟩ := h.session id (by simp [hnotes])
  have surpassed : s.lifecycle ≠ a := by
    have hlt := hlocal.attempts.surpassed pre a post hnotes hover
    omega
  have ignored : s.onRefreshed a result failure = (s, []) := by
    unfold Session.onRefreshed
    split_ifs
    · rfl
    · rfl
  obtain ⟨hlt, mine⟩ := List.getElem?_eq_some_iff.mp hs
  have same : c.state.sessions.set id s = c.state.sessions := by
    rw [← mine, List.set_getElem_self]
  rw [Machine.step_call]
  simp [machine, call, Store.run, Store.modify, hs, ignored, same, Config.resume, Control.push]

end Safety

/-- **Lifecycle safety.**  Whatever the order of calls, provider events, refresh results and
settles, and whatever the abort handlers call, the sessions of a store are safe. -/
theorem safe_of_run {moves : List (Move Call Unit)} {c : Cfg}
    (h : Transition.run machine.step init moves = some c) : Safe c := by
  have sane := sane_of_run h
  constructor
  case closes => exact fun m c' id s s' hm hs hopen hs' => sane.closes hm hs hopen hs'
  case needed => exact fun hstack id s hs => sane.needed hstack hs
  case unique => exact fun i j s t hs ht => sane.unique hs ht
  case acquired => exact sane.acquired
  case fetches =>
    intro id pre mid post a b hnotes
    obtain ⟨s, -, hlocal⟩ := sane.session id (by simp [hnotes])
    exact hlocal.history.apart pre a mid b post hnotes
  case releases => exact fun id pre post releases hnotes => sane.releases hnotes
  case late => exact fun id pre post a result failure hnotes => sane.late result failure hnotes

/-- A session that is acquired, rejected and blocked. -/
def blockedMoves : List (Move Call Unit) :=
  [.call (.acquire { grant := "g", name := "body" } none), .call (.settle 0),
    .call (.cable 0 1 .connected), .call (.cable 0 1 .rejected), .call (.settle 0), .back ()]

lemma blockedMoves_run :
    (Transition.run machine.step init blockedMoves).isSome := by decide

theorem safe_of_run_blocked :
    ∃ c, Transition.run machine.step init blockedMoves = some c ∧ Safe c := by
  obtain ⟨c, hc⟩ := Option.isSome_iff_exists.mp blockedMoves_run
  exact ⟨c, hc, safe_of_run hc⟩

end DocumentSession

end Yrby
