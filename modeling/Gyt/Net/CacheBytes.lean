import Gyt.Errors
import Gyt.Foundation.Machine
import Gyt.Foundation.Table

/-!
# The byte count of the response cache

The cache of `net/cache.rs` bounds the number of its entries and the bytes of their bodies.  The
bytes are counted along with every change of the map, under the same two locks, so that every call
is one step.

An insertion first takes off the bytes of the entry that it will replace, and then evicts entries
until there is room.  An eviction may pick just that entry, whose bytes are then taken off twice;
the count is right as long as an entry that is replaced is not evicted before, or has no bytes, or
all other entries with bytes are evicted as well.
-/

namespace Gyt.Cache

open List Option Table

structure Entry where
  body : Bytes
  contentType : Str
  expires : ℕ
  deriving DecidableEq

/-- The configuration of a cache. -/
structure Limits where
  ttl : ℕ
  maxEntries : ℕ
  /-- Zero if the bytes are not bounded. -/
  maxBytes : ℕ

/-- What the locks protect: the map, and the recorded number of bytes. -/
structure Held where
  map : Table Str Entry
  bytes : ℕ

/-- The cache after `new_with_bytes`. -/
def Held.start : Held := ⟨.empty, 0⟩

/-- The bytes of all bodies. -/
def Held.resident (s : Held) : ℕ := s.map.sum (·.body.length)

/-- The order in which a hash map lists its entries, which may be any. -/
structure Order where
  iter : List (Str × Entry) → List (Str × Entry)
  perm : ∀ l, (iter l).Perm l

section Calls

variable (c : Limits) (order : Order) (now : ℕ)

/-- The key that an eviction picks: the first one that has expired, or else the first one. -/
def evictKey (m : Table Str Entry) : Option Str :=
  let listed := order.iter m.entries
  ((listed.find? (·.2.expires ≤ now)).or listed.head?).map Prod.fst

/-- Dropping an entry. -/
def Held.remove (s : Held) (key : Str) : Held :=
  match s.map.get? key with
  | some e => ⟨s.map.retain fun k _ => k ≠ key, s.bytes - e.body.length⟩
  | none => s

/-- Evicting entries as long as there is no room.  Every iteration drops an entry, so that there are
at most as many as there are entries. -/
def evictWhile (full : Held → Bool) : ℕ → Held → Held
  | 0, s => s
  | n + 1, s =>
    if full s then
      match evictKey order now s.map with
      | some key => evictWhile full n (s.remove key)
      | none => s
    else s

/-- Whether a body takes more than a quarter of the bytes. -/
abbrev Limits.Refuses (body : Bytes) : Prop := 0 < c.maxBytes ∧ c.maxBytes < body.length * 4

/-- The cache before the entry of an insertion is set: the bytes of the old entry are taken off, and
entries are evicted. -/
def makeRoom (key : Str) (body : Bytes) (s : Held) : Held :=
  let s : Held := ⟨s.map, s.bytes - ((s.map.get? key).elim 0 (·.body.length))⟩
  let s := evictWhile order now (fun s => c.maxEntries ≤ s.map.size) s.map.size s
  if 0 < c.maxBytes then
    evictWhile order now (fun s => c.maxBytes < s.bytes + body.length) s.map.size s else s

/-- The call `insert`. -/
def insert (key : Str) (body : Bytes) (contentType : Str) (s : Held) : Held :=
  if c.Refuses body then s
  else
    let s := makeRoom c order now key body s
    ⟨s.map.insert key ⟨body, contentType, now + c.ttl⟩, s.bytes + body.length⟩

/-- The call `invalidate_prefix`. -/
def invalidatePrefix (start : Str) (s : Held) : Held :=
  ⟨s.map.retain fun k _ => !start.isPrefixOf k,
    s.bytes - (s.map.retain fun k _ => start.isPrefixOf k).sum (·.body.length)⟩

/-- The call `invalidate_all`. -/
def invalidateAll : Held := ⟨.empty, 0⟩

end Calls

/-- The calls that change the cache; an insertion is made at some time, and comes with the order in
which the map is listed. -/
inductive Call
  | insert (order : Order) (now : ℕ) (key : Str) (body : Bytes) (contentType : Str)
  | invalidatePrefix (start : Str)
  | invalidateAll

def step (c : Limits) (s : Held) : Call → Option Held
  | .insert order now key body contentType => some (insert c order now key body contentType s)
  | .invalidatePrefix start => some (invalidatePrefix start s)
  | .invalidateAll => some invalidateAll

/-- The count is right, and the limits are kept. -/
structure Accounted (c : Limits) (s : Held) : Prop where
  bytes_eq : s.bytes = s.resident
  bytes_le : s.resident ≤ c.maxBytes
  size_le : s.map.size ≤ c.maxEntries

/-- The bytes of the bodies of the other keys. -/
def Held.others (s : Held) (key : Str) : ℕ := (s.map.retain fun k _ => k ≠ key).sum (·.body.length)

/-- An insertion that replaces an entry with a body does not evict that entry before, unless it
evicts the bodies of all others as well. -/
def HasRoom (c : Limits) (s : Held) : Call → Prop
  | .insert order now key body _ => ∀ prev ∈ s.map.get? key, c.Refuses body ∨ prev.body = [] ∨
      (makeRoom c order now key body s).map.get? key = some prev ∨
      (makeRoom c order now key body s).others key = 0
  | _ => True

instance (c : Limits) (s : Held) : (call : Call) → Decidable (HasRoom c s call)
  | .insert .. => inferInstanceAs (Decidable (∀ _ ∈ _, _))
  | .invalidatePrefix _ | .invalidateAll => inferInstanceAs (Decidable True)

variable {c : Limits} {order : Order} {now : ℕ} {s : Held} {full : Held → Bool}

/-! ## Evictions -/

lemma exists_of_evictKey {m : Table Str Entry} {key : Str}
    (h : evictKey order now m = some key) : ∃ e, m.get? key = some e := by
  obtain ⟨⟨k, e⟩, hfound, rfl⟩ := map_eq_some_iff.mp h
  have hmem : (k, e) ∈ order.iter m.entries := by
    rcases or_eq_some_iff.mp hfound with hfind | ⟨-, hhead⟩
    · exact mem_of_find?_eq_some hfind
    · exact mem_of_mem_head? hhead
  exact ⟨e, get?_eq_some.mpr ((order.perm _).mem_iff.mp hmem)⟩

lemma size_remove {key : Str} {e : Entry} (he : s.map.get? key = some e) :
    (s.remove key).map.size + 1 = s.map.size := by
  have hsum := sum_retain_ne_add (fun _ => 1) he
  rw [sum_one, sum_one] at hsum
  rw [Held.remove, he]
  exact hsum

/-- What every eviction keeps, the loop keeps; it ends when there is room, or nothing. -/
lemma evictWhile_keeps (order : Order) (now : ℕ) (full : Held → Bool) {P : Held → Prop} {n : ℕ}
    (hP : ∀ s key e, s.map.get? key = some e → P s → P (s.remove key)) (hs : P s)
    (hn : s.map.size ≤ n) : P (evictWhile order now full n s) ∧
      (full (evictWhile order now full n s) = false ∨
        (evictWhile order now full n s).map.entries = []) := by
  induction n generalizing s with
  | zero => exact ⟨hs, .inr (length_eq_zero_iff.mp (Nat.le_zero.mp hn))⟩
  | succ n ih =>
    rw [evictWhile]
    split_ifs with hfull
    · split
      · next key hkey =>
        obtain ⟨e, he⟩ := exists_of_evictKey hkey
        have hsize := size_remove he
        exact ih (hP s key e he hs) (by omega)
      · next hnone =>
        obtain ⟨-, hhead⟩ := or_eq_none_iff.mp (map_eq_none_iff.mp hnone)
        have hnil := order.perm s.map.entries
        rw [head?_eq_none_iff.mp hhead] at hnil
        exact ⟨hs, .inr hnil.nil_eq.symm⟩
    · exact ⟨hs, .inl (Bool.eq_false_iff.mpr hfull)⟩

/-! ## What every run keeps -/

/-- Evicting an entry takes its bytes from the others, unless it is the entry of the key. -/
lemma others_remove (key : Str) {key' : Str} {e : Entry} (he : s.map.get? key' = some e) :
    (s.remove key').others key + (if key' = key then 0 else e.body.length) = s.others key := by
  have hcomm : (s.map.retain fun k _ => k ≠ key').retain (fun k _ => k ≠ key) =
      (s.map.retain fun k _ => k ≠ key).retain fun k _ => k ≠ key' := by
    simp [retain, Bool.and_comm]
  rw [Held.others, Held.others, Held.remove, he]
  simp only [hcomm]
  split_ifs with hkey
  · rw [retain_ne_of_get?_eq_none (by simp [get?_retain, hkey]), Nat.add_zero]
  · exact sum_retain_ne_add _ (by simp [get?_retain, he, hkey])

lemma bytes_remove {key : Str} {e : Entry} (he : s.map.get? key = some e) :
    (s.remove key).bytes = s.bytes - e.body.length := by
  rw [Held.remove, he]

/-- Whether the entries of the other keys are at least as large as recorded, and not too many. -/
def Spares (key : Str) (n : ℕ) (s : Held) : Prop := s.bytes ≤ s.others key ∧ s.map.size ≤ n

/-- Evicting the key itself takes off bytes that are no longer recorded. -/
lemma Spares.remove {key key' : Str} {n : ℕ} {e : Entry} (he : s.map.get? key' = some e)
    (h : Spares key n s) : Spares key n (s.remove key') := by
  have hsize := size_remove he
  have hothers := others_remove key he
  obtain ⟨hbytes, hle⟩ := h
  refine ⟨?_, by omega⟩
  rw [bytes_remove he]
  split_ifs at hothers <;> omega

/-- The count is not too high, and the limits are kept for what is recorded. -/
structure Bounded (c : Limits) (s : Held) : Prop where
  bytes_le_resident : s.bytes ≤ s.resident
  bytes_le : 0 < c.maxBytes → s.bytes ≤ c.maxBytes
  size_le : s.map.size ≤ c.maxEntries

lemma Spares.bounded {key : Str} {n : ℕ} {e : Entry} (h : Spares key n s) (hn : n < c.maxEntries)
    (hle : 0 < c.maxBytes → s.bytes + e.body.length ≤ c.maxBytes) :
    Bounded c ⟨s.map.insert key e, s.bytes + e.body.length⟩ :=
  ⟨(Nat.add_le_add_right h.1 _).trans_eq (Nat.add_comm ..), hle,
    ((length_filter_le ..).trans h.2).trans_lt hn⟩

lemma others_add (s : Held) (key : Str) :
    s.others key + (s.map.get? key).elim 0 (·.body.length) = s.resident := by
  cases hprev : s.map.get? key with
  | none => rw [Held.others, retain_ne_of_get?_eq_none hprev, elim_none, Nat.add_zero,
      Held.resident]
  | some prev => exact sum_retain_ne_add _ hprev

/-- Taking off the bytes of an entry that will be replaced leaves those of the others. -/
lemma spares_start (key : Str) (hbytes : s.bytes ≤ s.resident) :
    Spares key s.map.size ⟨s.map, s.bytes - ((s.map.get? key).elim 0 (·.body.length))⟩ :=
  ⟨Nat.sub_le_iff_le_add.mpr (hbytes.trans_eq (others_add s key).symm), le_rfl⟩

lemma Bounded.insert (h : Bounded c s) (hentries : 1 ≤ c.maxEntries) {key : Str} {body : Bytes}
    {contentType : Str} : Bounded c (insert c order now key body contentType s) := by
  unfold Cache.insert makeRoom
  by_cases hrefuses : c.Refuses body
  · rwa [if_pos hrefuses]
  rw [if_neg hrefuses]
  dsimp only
  have h₁ := evictWhile_keeps order now (fun s => c.maxEntries ≤ s.map.size)
    (fun _ _ _ => Spares.remove) (spares_start key h.bytes_le_resident) le_rfl
  generalize evictWhile order now (fun s => c.maxEntries ≤ s.map.size) s.map.size
    ⟨s.map, _⟩ = s₁ at h₁ ⊢
  have hsize : s₁.map.size < c.maxEntries := by
    rcases h₁.2 with hnot | hnil
    · simpa using hnot
    · rw [Table.size, hnil]
      exact hentries
  split_ifs with hpos
  · have h₂ := evictWhile_keeps order now (fun s => c.maxBytes < s.bytes + body.length)
      (fun _ _ _ => Spares.remove) ⟨h₁.1.1, le_rfl⟩ le_rfl
    refine h₂.1.bounded hsize fun _ => ?_
    rcases h₂.2 with hnot | hnil
    · simpa using hnot
    · have hzero := h₂.1.1
      simp only [Held.others, Table.sum, Table.retain, hnil, filter_nil, map_nil, sum_nil] at hzero
      have hbody := not_and.mp hrefuses hpos
      dsimp only
      omega
  · exact Spares.bounded ⟨h₁.1.1, le_rfl⟩ hsize (absurd · hpos)

/-- Every call keeps the bounds. -/
theorem Bounded.step (h : Bounded c s) (hentries : 1 ≤ c.maxEntries) {s' : Held} {call : Call}
    (hstep : step c s call = some s') : Bounded c s' := by
  cases call with
  | insert order now key body contentType =>
    cases hstep
    exact h.insert hentries
  | invalidatePrefix start =>
    cases hstep
    have hsum := sum_retain_add_sum_retain (·.body.length) s.map fun k _ => start.isPrefixOf k
    refine ⟨Nat.sub_le_iff_le_add'.mpr (h.bytes_le_resident.trans_eq hsum.symm),
      fun hpos => (Nat.sub_le ..).trans (h.bytes_le hpos), (length_filter_le ..).trans h.size_le⟩
  | invalidateAll =>
    cases hstep
    exact ⟨Nat.zero_le _, fun _ => Nat.zero_le _, Nat.zero_le _⟩

/-- After every sequence of calls, also of those that count an entry twice, no more bytes are
recorded than there are, and the recorded bytes and the entries are within their limits. -/
theorem bounded_of_run {calls : List Call} (hentries : 1 ≤ c.maxEntries)
    (hrun : Machine.run (Cache.step c) .start calls = some s) :
    s.bytes ≤ s.resident ∧ (0 < c.maxBytes → s.bytes ≤ c.maxBytes) ∧
      s.map.size ≤ c.maxEntries := by
  have hinv : Bounded c s := Machine.run_invariant
    (fun _ _ _ hs _ hstep => hs.step hentries hstep) (Machine.always_true _ _) hrun
    ⟨Nat.zero_le _, fun _ => Nat.zero_le _, Nat.zero_le _⟩
  exact ⟨hinv.bytes_le_resident, hinv.bytes_le, hinv.size_le⟩

/-! ## The count -/

lemma Accounted.bounded (h : Accounted c s) : Bounded c s :=
  ⟨h.bytes_eq.le, fun _ => h.bytes_eq.trans_le h.bytes_le, h.size_le⟩

lemma Bounded.accounted (h : Bounded c s) (hpos : 0 < c.maxBytes) (hbytes : s.bytes = s.resident) :
    Accounted c s :=
  ⟨hbytes, hbytes ▸ h.bytes_le hpos, h.size_le⟩

/-- Whether the bytes of the other keys are recorded, if the entry of the key was not evicted or has
no bytes. -/
def Counts (key : Str) (prev : Option Entry) (s : Held) : Prop :=
  (s.map.get? key = none ∨ s.map.get? key = prev) ∧
    (s.map.get? key = prev ∨ prev.elim 0 (·.body.length) = 0 → s.bytes = s.others key)

lemma Counts.remove {key key' : Str} {prev : Option Entry} {e : Entry}
    (he : s.map.get? key' = some e) (h : Counts key prev s) : Counts key prev (s.remove key') := by
  have hothers := others_remove key he
  have hget : (s.remove key').map.get? key = if key' = key then none else s.map.get? key := by
    rw [Held.remove, he]
    split_ifs with hkey
    · simp [get?_retain, hkey]
    · cases hother : s.map.get? key <;> simp [get?_retain, hother, Ne.symm hkey]
  obtain ⟨hprev, hbytes⟩ := h
  unfold Counts
  rw [bytes_remove he, hget]
  split_ifs at hothers ⊢ with hkey
  · -- The entry itself is evicted: nothing was recorded for it any more.
    subst hkey
    rw [he] at hprev hbytes
    obtain rfl := hprev.resolve_left (by simp)
    have hcount := hbytes (.inl rfl)
    refine ⟨.inl rfl, fun hempty => ?_⟩
    have hzero : e.body.length = 0 := by simpa using hempty
    omega
  · refine ⟨hprev, fun hkept => ?_⟩
    have hcount := hbytes hkept
    omega

/-- What the start and every eviction keep, making room keeps. -/
lemma makeRoom_keeps {P : Held → Prop} {key : Str} {body : Bytes}
    (hP : ∀ s key e, s.map.get? key = some e → P s → P (s.remove key))
    (hs : P ⟨s.map, s.bytes - ((s.map.get? key).elim 0 (·.body.length))⟩) :
    P (makeRoom c order now key body s) := by
  have hfirst := (evictWhile_keeps order now (fun s => c.maxEntries ≤ s.map.size) hP hs le_rfl).1
  unfold makeRoom
  dsimp only
  split_ifs
  · exact (evictWhile_keeps order now _ hP hfirst le_rfl).1
  · exact hfirst

lemma Accounted.bytes_insert (h : Accounted c s) {key : Str} {body : Bytes} {contentType : Str}
    (hroom : HasRoom c s (.insert order now key body contentType)) :
    (insert c order now key body contentType s).bytes =
      (insert c order now key body contentType s).resident := by
  unfold Cache.insert
  by_cases hrefuses : c.Refuses body
  · rw [if_pos hrefuses]
    exact h.bytes_eq
  rw [if_neg hrefuses]
  dsimp only
  -- The entry is set after everything else was counted.
  refine (Nat.add_comm ..).trans (congrArg (body.length + ·) ?_)
  have hcounts : Counts key (s.map.get? key) (makeRoom c order now key body s) := by
    refine makeRoom_keeps (fun _ _ _ => Counts.remove) ⟨.inr rfl, fun _ => ?_⟩
    exact Nat.sub_eq_of_eq_add (h.bytes_eq.trans (others_add s key).symm)
  cases hprev : s.map.get? key with
  | none =>
    rw [hprev] at hcounts
    exact hcounts.2 (.inl (or_self_iff.mp hcounts.1))
  | some prev =>
    rw [hprev] at hcounts
    rcases (hroom prev hprev).resolve_left hrefuses with hempty | hkept | hzero
    · exact hcounts.2 (.inr (by simp [hempty]))
    · exact hcounts.2 (.inl hkept)
    · have hspares : Spares key _ (makeRoom c order now key body s) :=
        makeRoom_keeps (fun _ _ _ => Spares.remove) (spares_start key h.bytes_eq.le)
      exact Nat.eq_zero_of_le_zero (hspares.1.trans_eq hzero) |>.trans hzero.symm

/-- Every call keeps the invariant. -/
theorem Accounted.step (h : Accounted c s) (hentries : 1 ≤ c.maxEntries) (hpos : 0 < c.maxBytes)
    {s' : Held} {call : Call} (hroom : HasRoom c s call) (hstep : step c s call = some s') :
    Accounted c s' := by
  refine (h.bounded.step hentries hstep).accounted hpos ?_
  cases call with
  | insert order now key body contentType =>
    cases hstep
    exact h.bytes_insert hroom
  | invalidatePrefix start =>
    cases hstep
    have hsum := sum_retain_add_sum_retain (·.body.length) s.map fun k _ => start.isPrefixOf k
    simp only [invalidatePrefix, Held.resident, h.bytes_eq, ← hsum, Nat.add_sub_cancel_left]
  | invalidateAll =>
    cases hstep
    rfl

/-- After every sequence of calls in which no entry is evicted that is then replaced, the count is
that of the entries, and both limits are kept. -/
theorem accounted_of_run {calls : List Call} (hentries : 1 ≤ c.maxEntries) (hpos : 0 < c.maxBytes)
    (hroom : Machine.Always (step c) (HasRoom c) .start calls)
    (hrun : Machine.run (step c) .start calls = some s) :
    s.bytes = s.resident ∧ s.resident ≤ c.maxBytes ∧ s.map.size ≤ c.maxEntries := by
  have hinv : Accounted c s := Machine.run_invariant
    (fun _ _ _ hs hroom hstep => hs.step hentries hpos hroom hstep) hroom hrun
    ⟨rfl, Nat.zero_le _, Nat.zero_le _⟩
  exact ⟨hinv.bytes_eq, hinv.bytes_le, hinv.size_le⟩

/-- Two entries of at most eight bytes, and a map that is listed from the oldest entry on. -/
def sampleLimits : Limits := ⟨60, 2, 8⟩

def sampleInsert (key : Char) (body : Bytes) : Call :=
  .insert ⟨List.reverse, List.reverse_perm⟩ 0 [key] body []

/-- An entry is replaced while there is room, and then another one is added. -/
def sampleCalls : List Call :=
  [sampleInsert 'a' [1], sampleInsert 'a' [1, 2], sampleInsert 'b' [1]]

/-- With room left, the bytes are counted right. -/
theorem replaced_with_room :
    ∃ s, Machine.run (step sampleLimits) .start sampleCalls = some s ∧
      s.bytes = 3 ∧ s.bytes = s.resident ∧ s.resident ≤ sampleLimits.maxBytes ∧
      s.map.size ≤ sampleLimits.maxEntries :=
  ⟨_, rfl, rfl, accounted_of_run (by decide) (by decide)
    (show Machine.Always _ (HasRoom sampleLimits) _ sampleCalls by decide) rfl⟩

/-- With two entries in the cache, replacing the older one evicts it first: two bytes are recorded
where there are three. -/
theorem replaced_entry_counted_twice :
    (Machine.run (step sampleLimits) .start
        [sampleInsert 'a' [1], sampleInsert 'b' [1, 2], sampleInsert 'a' [3]]).map
      (fun s => (s.bytes, s.resident, s.map.size)) = some (2, 3, 2) := by decide

/-- The bounds hold there, too. -/
theorem replaced_within_bounds :
    ∃ s, Machine.run (step sampleLimits) .start
        [sampleInsert 'a' [1], sampleInsert 'b' [1, 2], sampleInsert 'a' [3]] = some s ∧
      s.bytes ≤ s.resident ∧ (0 < sampleLimits.maxBytes → s.bytes ≤ sampleLimits.maxBytes) ∧
      s.map.size ≤ sampleLimits.maxEntries :=
  Exists.imp (fun _ hrun => ⟨hrun, bounded_of_run (by decide) hrun⟩) ⟨_, rfl⟩

end Gyt.Cache
