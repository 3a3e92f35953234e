import CS352.Library.RingBuffer
import CS352.Library.Transition
import CS352.Model.VirtioDisk
import Mathlib.Data.List.Perm.Subperm
import Mathlib.Tactic.Push

/-! # Requests in flight

Every descriptor is free or belongs to the chain of one request, and a chain is in one place at
a time: published, taken by the device, served, reported, or seen by the handler. -/

namespace CS352.VirtioDisk

open RingBuffer Transition Function

variable {ι β : Type*}

/-! ## Descriptors -/

/-- The three descriptors of a chain. -/
def Idx.toList (idx : Idx) : List ℕ := [idx.head, idx.middle, idx.last]

theorem Idx.head_mem (idx : Idx) : idx.head ∈ idx.toList := by simp [Idx.toList]

/-- The descriptors in `l` are taken. -/
def taken (d : Disk β) (l : List ℕ) : Disk β :=
  { d with free := fun i => if i ∈ l then false else d.free i }

/-- The descriptors in `l` are cleared and given back. -/
def freed (d : Disk β) (l : List ℕ) : Disk β :=
  { d with
    desc := fun i => if i ∈ l then .zero else d.desc i
    free := fun i => if i ∈ l then true else d.free i }

theorem update_eq_ite {α : Type*} (f : ℕ → α) (i : ℕ) (a : α) :
    update f i a = fun j => if j = i then a else f j := by
  funext j
  rw [update_apply]

theorem taken_taken (d : Disk β) (l l' : List ℕ) : taken (taken d l) l' = taken d (l ++ l') := by
  have hfree : (fun i => if i ∈ l' then false else if i ∈ l then false else d.free i) =
      fun i => if i ∈ l ++ l' then false else d.free i := by
    funext i
    by_cases hi : i ∈ l <;> by_cases hi' : i ∈ l' <;> simp [hi, hi']
  simp only [taken, hfree]

theorem freed_freed (d : Disk β) (l l' : List ℕ) : freed (freed d l) l' = freed d (l ++ l') := by
  have hdesc : (fun i => if i ∈ l' then Desc.zero else if i ∈ l then .zero else d.desc i) =
      fun i => if i ∈ l ++ l' then .zero else d.desc i := by
    funext i
    by_cases hi : i ∈ l <;> by_cases hi' : i ∈ l' <;> simp [hi, hi']
  have hfree : (fun i => if i ∈ l' then true else if i ∈ l then true else d.free i) =
      fun i => if i ∈ l ++ l' then true else d.free i := by
    funext i
    by_cases hi : i ∈ l <;> by_cases hi' : i ∈ l' <;> simp [hi, hi']
  simp only [freed, hdesc, hfree]

section

variable [DecidableEq β] {s : State ι β}

/-- The descriptors in `l` are given back, and who waits for descriptors is woken. -/
def givenBack (s : State ι β) (l : List ℕ) : State ι β :=
  (s.setDisk (freed s.disk l)).wakeup .free

omit [DecidableEq β] in
@[simp] theorem Place.chan_wake (place : Place β) : place.wake.chan = none := by
  cases place <;> rfl

theorem wakeup_wakeup (s : State ι β) (chan : Chan β) :
    (s.wakeup chan).wakeup chan = s.wakeup chan := by
  unfold State.wakeup
  congr 1
  funext p
  by_cases hchan : (s.place p).chan = some chan <;> simp [hchan]

theorem givenBack_givenBack (s : State ι β) (l l' : List ℕ) :
    givenBack (givenBack s l) l' = givenBack s (l ++ l') := by
  unfold givenBack
  rw [← freed_freed]
  exact wakeup_wakeup (s.setDisk (freed (freed s.disk l) l')) .free

omit [DecidableEq β] in
theorem allocDesc_eq_some {s' : State ι β} {i : ℕ} (h : allocDesc s = some (i, s')) :
    s.disk.free i = true ∧ i < num ∧ s' = s.setDisk (taken s.disk [i]) := by
  obtain ⟨j, hfind, heq⟩ := Option.map_eq_some_iff.mp h
  cases heq
  refine ⟨List.find?_some hfind, List.mem_range.mp (List.mem_of_find?_eq_some hfind), ?_⟩
  simp only [taken, List.mem_singleton, update_eq_ite]

omit [DecidableEq β] in
theorem allocDesc_eq_none (h : allocDesc s = none) : ∀ i < num, s.disk.free i = false := by
  intro i hi
  have hnone := List.find?_eq_none.mp (Option.map_eq_none_iff.mp h) i (List.mem_range.mpr hi)
  simpa using hnone

theorem freeDesc_eq {i : ℕ} (hi : i < num) (hfree : s.disk.free i = false) :
    freeDesc s i = .ok (givenBack s [i]) := by
  simp [freeDesc, Nat.not_le.mpr hi, hfree, givenBack, freed, update_eq_ite]

end

/-- A failed `alloc3_desc` leaves what it took and gave back cleared. -/
structure Restored (d d' : Disk β) : Prop where
  free : d'.free = d.free
  desc : ∀ i, d.free i = false → d'.desc i = d.desc i
  avail : d'.avail = d.avail
  used : d'.used = d.used
  usedIdx : d'.usedIdx = d.usedIdx
  info : d'.info = d.info
  ops : d'.ops = d.ops

theorem restored_freed_taken {d : Disk β} {l : List ℕ} (h : ∀ i ∈ l, d.free i = true) :
    Restored d (freed (taken d l) l) := by
  refine ⟨?_, ?_, rfl, rfl, rfl, rfl, rfl⟩
  · funext i
    by_cases hi : i ∈ l <;> simp [freed, taken, hi, h]
  · intro i hfree
    have hi : i ∉ l := fun hi => by simp [h i hi] at hfree
    simp [freed, taken, hi]

/-- Fewer than three descriptors are free. -/
def Scarce (d : Disk β) : Prop :=
  ∀ l : List ℕ, l.Nodup → (∀ i ∈ l, d.free i = true ∧ i < num) → l.length < 3

/-- After fewer than three descriptors none is left. -/
theorem scarce_of_allocDesc {s : State ι β} {l : List ℕ} (hl : l.length < 3)
    (h : allocDesc (s.setDisk (taken s.disk l)) = none) : Scarce s.disk := by
  intro l' hnodup hfree
  by_contra hlen
  obtain ⟨i, hi, hil⟩ : ∃ i ∈ l', i ∉ l := by
    by_contra hall
    push Not at hall
    have hle := (List.subperm_of_subset hnodup hall).length_le
    omega
  have hnone := allocDesc_eq_none h i (hfree i hi).2
  simp [State.setDisk, taken, hil, (hfree i hi).1] at hnone

/-- `alloc3_desc` finds three descriptors, or there are fewer and it takes none. -/
theorem alloc3Desc_spec [DecidableEq β] (s : State ι β) :
    (∃ d, ∃ woken : Bool,
      alloc3Desc s = .ok (none, (if woken then s.wakeup .free else s).setDisk d) ∧
      Restored s.disk d ∧ Scarce s.disk) ∨
    ∃ idx : Idx, idx.toList.Nodup ∧ (∀ i ∈ idx.toList, s.disk.free i = true ∧ i < num) ∧
      alloc3Desc s = .ok (some idx, s.setDisk (taken s.disk idx.toList)) := by
  have hnil : s.setDisk (taken s.disk []) = s := by simp [taken, State.setDisk]
  have htwice : ∀ l l', (s.setDisk (taken s.disk l)).setDisk
      (taken (s.setDisk (taken s.disk l)).disk l') = s.setDisk (taken s.disk (l ++ l')) := by
    intro l l'
    rw [← taken_taken]
    rfl
  unfold alloc3Desc
  cases h₀ : allocDesc s with
  | none =>
    refine .inl ⟨s.disk, false, rfl, ⟨rfl, fun _ _ => rfl, rfl, rfl, rfl, rfl, rfl⟩, ?_⟩
    exact scarce_of_allocDesc (l := []) (by decide) (by rwa [hnil])
  | some r₀ =>
    obtain ⟨i, s₁⟩ := r₀
    obtain ⟨hi, hin, rfl⟩ := allocDesc_eq_some h₀
    dsimp only
    cases h₁ : allocDesc (s.setDisk (taken s.disk [i])) with
    | none =>
      refine .inl ⟨freed (taken s.disk [i]) [i], true, ?_, ?_,
        scarce_of_allocDesc (l := [i]) (by simp) h₁⟩
      · rw [freeDesc_eq hin (by simp [taken, State.setDisk])]
        rfl
      · exact restored_freed_taken (by simpa using hi)
    | some r₁ =>
      obtain ⟨j, s₂⟩ := r₁
      obtain ⟨hj, hjn, rfl⟩ := allocDesc_eq_some h₁
      have hij : j ≠ i := by
        rintro rfl
        simp [taken, State.setDisk] at hj
      have hj' : s.disk.free j = true := by simpa [taken, State.setDisk, hij] using hj
      rw [htwice]
      dsimp only
      cases h₂ : allocDesc (s.setDisk (taken s.disk ([i] ++ [j]))) with
      | none =>
        refine .inl ⟨freed (taken s.disk [i, j]) [i, j], true, ?_, ?_,
          scarce_of_allocDesc (l := [i, j]) (by simp) h₂⟩
        · have hfree : (givenBack (s.setDisk (taken s.disk ([i] ++ [j]))) [i]).disk.free j =
              false := by
            simp [givenBack, freed, taken, State.setDisk, State.wakeup, hij]
          rw [freeDesc_eq hin (by simp [taken, State.setDisk])]
          change (freeDesc (givenBack (s.setDisk (taken s.disk ([i] ++ [j]))) [i]) j).bind _ = _
          rw [freeDesc_eq hjn hfree, givenBack_givenBack]
          rfl
        · refine restored_freed_taken ?_
          simp [hi, hj']
      | some r₂ =>
        obtain ⟨k, s₃⟩ := r₂
        obtain ⟨hk, hkn, rfl⟩ := allocDesc_eq_some h₂
        have hki : k ≠ i ∧ k ≠ j := by
          constructor <;> rintro rfl <;> simp [taken, State.setDisk] at hk
        have hk' : s.disk.free k = true := by
          simpa [taken, State.setDisk, hki.1, hki.2] using hk
        refine .inr ⟨⟨i, j, k⟩, ?_, ?_, ?_⟩
        · simp [Idx.toList, hij.symm, hki.1.symm, hki.2.symm]
        · simp [Idx.toList, hi, hin, hj', hjn, hk', hkn]
        · rw [htwice]
          rfl

/-! ## Chains -/

structure Request (β : Type*) where
  call : Call β
  idx : Idx

namespace Place

def call : Place β → Option (Call β)
  | .out => none
  | .enter c | .waitFree c | .alloc c | .publish c _ | .notify c _ | .await c _ | .asleep c _
  | .woken c _ => some c

/-- The request that a thread has made. -/
def request : Place β → Option (Request β)
  | .publish c idx | .notify c idx | .await c idx | .asleep c idx | .woken c idx => some ⟨c, idx⟩
  | _ => none

/-- The thread has the lock. -/
def locked : Place β → Bool
  | .alloc .. | .publish .. | .notify .. | .await .. => true
  | _ => false

def publishing : Place β → Bool
  | .publish .. => true
  | _ => false

def notifying : Place β → Bool
  | .notify .. => true
  | _ => false

variable {place : Place β}

theorem call_of_request {r : Request β} (h : place.request = some r) :
    place.call = some r.call := by
  cases place with
  | publish | notify | await | asleep | woken =>
    cases h
    rfl
  | _ => cases h

theorem locked_of_publishing (h : place.publishing = true) : place.locked = true := by
  cases place with
  | publish => rfl
  | _ => cases h

@[simp] theorem call_wake : place.wake.call = place.call := by cases place <;> rfl
@[simp] theorem request_wake : place.wake.request = place.request := by cases place <;> rfl
@[simp] theorem locked_wake : place.wake.locked = place.locked := by cases place <;> rfl
@[simp] theorem publishing_wake : place.wake.publishing = place.publishing := by cases place <;> rfl
@[simp] theorem notifying_wake : place.wake.notifying = place.notifying := by cases place <;> rfl

end Place

/-- The descriptors of a request are as `format` writes them. -/
structure Linked (d : Disk β) (r : Request β) : Prop where
  head : d.desc r.idx.head = ⟨.op r.idx.head, 16, true, false, r.idx.middle⟩
  middle : d.desc r.idx.middle = ⟨.data r.call.b, bsize, true, !r.call.write, r.idx.last⟩
  last : d.desc r.idx.last = ⟨.status r.idx.head, 1, false, true, 0⟩

/-- So are the header and the reference to the buffer. -/
structure Formatted (d : Disk β) (blockno : ℕ) (r : Request β) : Prop extends Linked d r where
  op : d.ops r.idx.head = blkReq blockno r.call.write
  info : (d.info r.idx.head).b = some r.call.b

theorem Formatted.congr {d d' : Disk β} {blockno : ℕ} {r : Request β}
    (h : Formatted d blockno r) (hdesc : ∀ i ∈ r.idx.toList, d'.desc i = d.desc i)
    (hop : d'.ops r.idx.head = d.ops r.idx.head)
    (hinfo : (d'.info r.idx.head).b = (d.info r.idx.head).b) : Formatted d' blockno r := by
  refine ⟨⟨?_, ?_, ?_⟩, hop.trans h.op, hinfo.trans h.info⟩
  · rw [hdesc _ (by simp [Idx.toList]), h.head]
  · rw [hdesc _ (by simp [Idx.toList]), h.middle]
  · rw [hdesc _ (by simp [Idx.toList]), h.last]

theorem formatted_format (d : Disk β) (c : Call β) (blockno : ℕ) {idx : Idx}
    (hnodup : idx.toList.Nodup) : Formatted (format d c blockno idx) blockno ⟨c, idx⟩ := by
  simp only [Idx.toList, List.nodup_cons, List.mem_cons, not_or] at hnodup
  obtain ⟨⟨hhm, hhl, -⟩, ⟨hml, -⟩, -⟩ := hnodup
  refine ⟨⟨?_, ?_, ?_⟩, ?_, ?_⟩ <;> simp [format, hhm, hhl, hml]

/-- `format` touches the descriptors of its own chain. -/
theorem format_of_notMem (d : Disk β) (c : Call β) (blockno : ℕ) {idx : Idx} {i : ℕ}
    (hi : i ∉ idx.toList) : (format d c blockno idx).desc i = d.desc i ∧
      (format d c blockno idx).ops i = d.ops i ∧ (format d c blockno idx).info i = d.info i := by
  simp only [Idx.toList, List.mem_cons, List.not_mem_nil, or_false, not_or] at hi
  simp [format, hi.1, hi.2.1, hi.2.2]

/-- The device reads a chain as it was written. -/
theorem Formatted.readChain_eq {d : Disk β} {blockno : ℕ} {r : Request β}
    (h : Formatted d blockno r) : readChain d r.idx.head =
      some ⟨blkReq blockno r.call.write, r.call.b, bsize, r.idx.head⟩ := by
  simp only [readChain, h.head, h.middle, h.last, h.op, and_self, if_true]
  cases hwrite : r.call.write <;> simp [blkReq]

/-- `free_chain` gives back a whole chain. -/
theorem freeChain_eq [DecidableEq β] {s : State ι β} {r : Request β} (h : Linked s.disk r)
    (hnodup : r.idx.toList.Nodup)
    (hbusy : ∀ i ∈ r.idx.toList, s.disk.free i = false ∧ i < num) :
    freeChain num s r.idx.head = .ok (givenBack s r.idx.toList) := by
  simp only [Idx.toList, List.nodup_cons, List.mem_cons, List.not_mem_nil, or_false,
    not_or] at hnodup hbusy
  obtain ⟨⟨hhm, hhl⟩, hml, -⟩ := hnodup
  -- One pass of the loop, after the descriptors in `l` have been given back.
  have hpass : ∀ fuel l i, i ∉ l → (s.disk.free i = false ∧ i < num) →
      freeChain (fuel + 1) (givenBack s l) i = if (s.disk.desc i).hasNext then
        freeChain fuel (givenBack s (l ++ [i])) (s.disk.desc i).next
      else .ok (givenBack s (l ++ [i])) := by
    intro fuel l i hi hfree
    have hfree' : (givenBack s l).disk.free i = false := by
      simp [givenBack, State.wakeup, State.setDisk, freed, hi, hfree.1]
    have hdesc : (givenBack s l).disk.desc i = s.disk.desc i := by
      simp [givenBack, State.wakeup, State.setDisk, freed, hi]
    rw [freeChain, freeDesc_eq hfree.2 hfree', hdesc, givenBack_givenBack]
    rfl
  have hstart : freeChain num s r.idx.head = if (s.disk.desc r.idx.head).hasNext then
        freeChain 7 (givenBack s [r.idx.head]) (s.disk.desc r.idx.head).next
      else .ok (givenBack s [r.idx.head]) := by
    rw [num, freeChain, freeDesc_eq (hbusy _ (.inl rfl)).2 (hbusy _ (.inl rfl)).1]
    rfl
  rw [hstart, h.head, if_pos rfl,
    hpass 6 _ _ (by simpa using Ne.symm hhm) (hbusy _ (.inr (.inl rfl))), h.middle, if_pos rfl,
    hpass 5 _ _ (by simpa using ⟨Ne.symm hhl, Ne.symm hml⟩) (hbusy _ (.inr (.inr rfl))), h.last,
    if_neg (by simp)]
  rfl

/-- The chains of the requests are apart, and the other descriptors are free. -/
structure Chains (free : ℕ → Bool) (request : ι → Option (Request β)) : Prop where
  nodup : ∀ p r, request p = some r → r.idx.toList.Nodup
  disjoint : ∀ p q r r' i, request p = some r → request q = some r' → i ∈ r.idx.toList →
    i ∈ r'.idx.toList → p = q
  owned : ∀ i, free i = false ∧ i < num ↔ ∃ p r, request p = some r ∧ i ∈ r.idx.toList

variable [DecidableEq ι] {free : ℕ → Bool} {request : ι → Option (Request β)}

omit [DecidableEq ι] in
theorem Chains.busy (h : Chains free request) {p : ι} {r : Request β} (hp : request p = some r) :
    ∀ i ∈ r.idx.toList, free i = false ∧ i < num :=
  fun i hi => (h.owned i).mpr ⟨p, r, hp, hi⟩

theorem Chains.add (h : Chains free request) {p : ι} (hp : request p = none) {r : Request β}
    (hnodup : r.idx.toList.Nodup) (hfree : ∀ i ∈ r.idx.toList, free i = true ∧ i < num) :
    Chains (fun i => if i ∈ r.idx.toList then false else free i)
      (update request p (some r)) := by
  have hold : ∀ q r', request q = some r' → q ≠ p := by
    rintro q r' hq rfl
    simp [hp] at hq
  have hapart : ∀ q r' i, request q = some r' → i ∈ r'.idx.toList → i ∉ r.idx.toList := by
    intro q r' i hq hi' hi
    have hbusy := (h.busy hq i hi').1
    simp [(hfree i hi).1] at hbusy
  refine ⟨?_, ?_, ?_⟩
  · intro q r' hq
    by_cases hqp : q = p
    · rw [hqp, update_self] at hq
      rwa [← Option.some.inj hq]
    · rw [update_of_ne hqp] at hq
      exact h.nodup q r' hq
  · intro q q' s s' i hq hq' hi hi'
    by_cases hqp : q = p <;> by_cases hqp' : q' = p
    · rw [hqp, hqp']
    · rw [hqp, update_self] at hq
      rw [update_of_ne hqp'] at hq'
      cases hq
      exact absurd hi (hapart q' s' i hq' hi')
    · rw [hqp', update_self] at hq'
      rw [update_of_ne hqp] at hq
      cases hq'
      exact absurd hi' (hapart q s i hq hi)
    · rw [update_of_ne hqp] at hq
      rw [update_of_ne hqp'] at hq'
      exact h.disjoint q q' s s' i hq hq' hi hi'
  · intro i
    by_cases hi : i ∈ r.idx.toList
    · simp only [hi, if_true, true_and]
      exact ⟨fun _ => ⟨p, r, update_self .., hi⟩, fun _ => (hfree i hi).2⟩
    · simp only [hi, if_false, h.owned]
      constructor
      · rintro ⟨q, r', hq, hi'⟩
        exact ⟨q, r', by rwa [update_of_ne (hold q r' hq)], hi'⟩
      · rintro ⟨q, r', hq, hi'⟩
        by_cases hqp : q = p
        · rw [hqp, update_self] at hq
          cases hq
          exact absurd hi' hi
        · rw [update_of_ne hqp] at hq
          exact ⟨q, r', hq, hi'⟩

theorem Chains.remove (h : Chains free request) {p : ι} {r : Request β} (hp : request p = some r) :
    Chains (fun i => if i ∈ r.idx.toList then true else free i)
      (update request p none) := by
  have hold : ∀ q r', update request p none q = some r' → q ≠ p ∧ request q = some r' := by
    intro q r' hq
    by_cases hqp : q = p
    · rw [hqp, update_self] at hq
      cases hq
    · rw [update_of_ne hqp] at hq
      exact ⟨hqp, hq⟩
  refine ⟨?_, ?_, ?_⟩
  · intro q r' hq
    exact h.nodup q r' (hold q r' hq).2
  · intro q q' s s' i hq hq' hi hi'
    exact h.disjoint q q' s s' i (hold q s hq).2 (hold q' s' hq').2 hi hi'
  · intro i
    by_cases hi : i ∈ r.idx.toList
    · simp only [hi, if_true, Bool.true_eq_false, false_and, false_iff]
      rintro ⟨q, r', hq, hi'⟩
      obtain ⟨hqp, hq⟩ := hold q r' hq
      exact hqp (h.disjoint q p r' r i hq hp hi' hi)
    · simp only [hi, if_false, h.owned]
      constructor
      · rintro ⟨q, r', hq, hi'⟩
        have hqp : q ≠ p := by
          rintro rfl
          rw [hp] at hq
          cases hq
          exact hi hi'
        exact ⟨q, r', by rwa [update_of_ne hqp], hi'⟩
      · rintro ⟨q, r', hq, hi'⟩
        exact ⟨q, r', (hold q r' hq).2, hi'⟩

end CS352.VirtioDisk
