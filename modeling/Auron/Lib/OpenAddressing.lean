import Mathlib.Data.List.Perm.Basic
import Mathlib.Data.List.Flatten
import Mathlib.Data.List.Nodup
import Mathlib.Data.Nat.Log
import Mathlib.Data.Nat.ModEq
import Mathlib.Tactic.Ring

/-!
# Open addressing over groups of slots

A table is a list of groups, a group a list of slots, a slot a hash and a value; hash 0 marks an empty slot.  An entry of
hash `h` is looked for in the group `home h` and then, cyclically, in the groups behind it; it is put into the first empty
slot on that way.

* `probe` walks over the groups until a test on a group succeeds;
* `Placed` is the invariant of such tables: the groups an entry's way passes before its own are full;
* an entry is found on its way (`Placed.probe_of_mem`); if a test fails on full groups and succeeds on the others, the
  walk ends at the first group with an empty slot (`Placed.probe_of_full`), and an entry may be put there (`Placed.set`).
-/

namespace Auron.Lib

open List

variable {ν β : Type*}

/-- The slots of a group: hash and value, hash 0 if empty. -/
abbrev SlotGroup (ν : Type*) := List (ℕ × ν)

def firstEmpty (g : SlotGroup ν) : Option ℕ := g.findIdx? fun s => s.1 == 0

def Full (g : SlotGroup ν) : Prop := ∀ s ∈ g, s.1 ≠ 0

def entries (map : List (SlotGroup ν)) : List (ℕ × ν) := map.flatten.filter fun s => s.1 != 0

/-- The first group from group `e` on, cyclically, on which the test succeeds, with its result. -/
def probe (test : SlotGroup ν → Option β) (map : List (SlotGroup ν)) : ℕ → ℕ → Option (ℕ × β)
  | 0, _ => none
  | rounds + 1, e =>
    match map[e]? with
    | none => none
    | some g =>
      match test g with
      | some b => some (e, b)
      | none => probe test map rounds ((e + 1) % map.length)

def setSlot (map : List (SlotGroup ν)) (e i : ℕ) (s : ℕ × ν) : List (SlotGroup ν) := map.modify e fun g => g.set i s

def insertEntry (home : ℕ → ℕ) (map : List (SlotGroup ν)) (s : ℕ × ν) : Option (List (SlotGroup ν)) :=
  (probe firstEmpty map map.length (home s.1)).map fun ei => setSlot map ei.1 ei.2 s

/-! ### Groups -/

variable {g : SlotGroup ν}

lemma firstEmpty_eq_none_iff : firstEmpty g = none ↔ Full g := by
  simp [firstEmpty, Full]

variable {i : ℕ}

lemma firstEmpty_eq_some (h : firstEmpty g = some i) :
    ∃ v, g[i]? = some (0, v) ∧ ∀ j s, j < i → g[j]? = some s → s.1 ≠ 0 := by
  unfold firstEmpty at h
  rw [findIdx?_eq_some_iff_getElem] at h
  obtain ⟨hi, h0, hlt⟩ := h
  refine ⟨(g[i]).2, ?_, ?_⟩
  · rw [getElem?_eq_getElem hi]
    have : (g[i]).1 = 0 := by simpa using h0
    exact congrArg some (Prod.ext this rfl)
  · intro j s hj hs
    obtain ⟨_, rfl⟩ := List.getElem?_eq_some_iff.1 hs
    simpa using hlt j hj

/-! ### The walk -/

/-- The `k`-th group on the way from group `e`. -/
def wayGroup (map : List (SlotGroup ν)) (e k : ℕ) : ℕ := (e + k) % map.length

lemma probe_eq {test : SlotGroup ν → Option β} {map : List (SlotGroup ν)} {b : β} :
    ∀ (k rounds e : ℕ), k < rounds → e < map.length →
      (∀ j < k, ∃ g, map[wayGroup map e j]? = some g ∧ test g = none) →
      (∃ g, map[wayGroup map e k]? = some g ∧ test g = some b) →
      probe test map rounds e = some (wayGroup map e k, b)
  | _, 0, _, hk, _, _, _ => absurd hk (by simp)
  | 0, rounds + 1, e, _, he, _, hb => by
    obtain ⟨g, hg, hb⟩ := hb
    have hway : wayGroup map e 0 = e := Nat.mod_eq_of_lt he
    rw [hway] at hg ⊢
    simp [probe, hg, hb]
  | k + 1, rounds + 1, e, hk, he, hnone, hb => by
    have hway : wayGroup map e 0 = e := Nat.mod_eq_of_lt he
    obtain ⟨g, hg, hn⟩ := hnone 0 (Nat.succ_pos k)
    rw [hway] at hg
    have hshift : ∀ j, wayGroup map ((e + 1) % map.length) j = wayGroup map e (j + 1) := by
      intro j
      unfold wayGroup
      rw [Nat.mod_add_mod]
      congr 1
      ring
    have hrec := probe_eq k rounds ((e + 1) % map.length) (Nat.lt_of_succ_lt_succ hk)
      (Nat.mod_lt _ (Nat.zero_lt_of_lt he)) (by
        intro j hj
        rw [hshift]
        exact hnone (j + 1) (Nat.succ_lt_succ hj)) (by rwa [hshift])
    rw [hshift] at hrec
    simp [probe, hg, hn, hrec]

lemma exists_wayGroup {map : List (SlotGroup ν)} (e : ℕ) {e' : ℕ} (he' : e' < map.length) :
    ∃ k < map.length, wayGroup map e k = e' := by
  have hpos : 0 < map.length := Nat.zero_lt_of_lt he'
  refine ⟨(e' + (map.length - e % map.length)) % map.length, Nat.mod_lt _ hpos, ?_⟩
  unfold wayGroup
  have hlt : e % map.length < map.length := Nat.mod_lt _ hpos
  have hsum : e % map.length + (e' + (map.length - e % map.length)) = e' + map.length := by omega
  rw [Nat.add_mod_mod, ← Nat.mod_add_mod, hsum, Nat.add_mod_right, Nat.mod_eq_of_lt he']

lemma exists_first_wayGroup (map : List (SlotGroup ν)) (e : ℕ) {P : ℕ → Prop} (hP : ∃ e' < map.length, P e') :
    ∃ k < map.length, P (wayGroup map e k) ∧ ∀ j < k, ¬P (wayGroup map e j) := by
  classical
  obtain ⟨_, he', _⟩ := hP
  obtain ⟨k, hk, hway⟩ := exists_wayGroup e he'
  have hex : ∃ k, P (wayGroup map e k) := ⟨k, by rwa [hway]⟩
  refine ⟨Nat.find hex, lt_of_le_of_lt (Nat.find_min' hex (by rwa [hway])) hk, Nat.find_spec hex, ?_⟩
  intro j hj
  exact Nat.find_min hex hj

lemma probe_way {map : List (SlotGroup ν)} {test : SlotGroup ν → Option β} {e k : ℕ} {b : β} (he : e < map.length)
    (hk : k < map.length) (hnone : ∀ j < k, ∀ g', map[wayGroup map e j]? = some g' → test g' = none)
    (hg : map[wayGroup map e k]? = some g) (hb : test g = some b) :
    probe test map map.length e = some (wayGroup map e k, b) := by
  refine probe_eq k map.length e hk he (fun j hj => ?_) ⟨g, hg, hb⟩
  have hj' := getElem?_eq_getElem (Nat.mod_lt (e + j) (Nat.zero_lt_of_lt he))
  exact ⟨_, hj', hnone j hj _ hj'⟩

/-! ### The invariant -/

/-- Where the entries of a table are: in a group the occupied slots come first, empty slots hold the default, and the
groups on an entry's way before its own are full. -/
structure Placed (home : ℕ → ℕ) (d : ν) (map : List (SlotGroup ν)) : Prop where
  home_lt : ∀ h, home h < map.length
  front : ∀ g ∈ map, ∀ (i j : ℕ) (s s' : ℕ × ν), i ≤ j → g[i]? = some s → g[j]? = some s' → s'.1 ≠ 0 → s.1 ≠ 0
  default : ∀ g ∈ map, ∀ s ∈ g, s.1 = 0 → s.2 = d
  way : ∀ (e : ℕ) (g : SlotGroup ν), map[e]? = some g → ∀ s ∈ g, s.1 ≠ 0 → ∀ k,
    (∀ j ≤ k, wayGroup map (home s.1) j ≠ e) → ∀ g', map[wayGroup map (home s.1) k]? = some g' → Full g'

variable {home : ℕ → ℕ}

lemma placed_replicate (d : ν) {n : ℕ} (hhome : ∀ h, home h < n) (size : ℕ) :
    Placed home d (replicate n (replicate size (0, d))) where
  home_lt h := by
    rw [length_replicate]
    exact hhome h
  front := by
    intro g hg i j s _ _ _ hs' hne
    obtain rfl := eq_of_mem_replicate hg
    have := eq_of_mem_replicate (mem_of_getElem? hs')
    exact absurd (by rw [this]) hne
  default := by
    intro g hg s hs _
    obtain rfl := eq_of_mem_replicate hg
    rw [eq_of_mem_replicate hs]
  way := by
    intro e g hg s hs hne
    obtain rfl := eq_of_mem_replicate (mem_of_getElem? hg)
    exact absurd (by rw [eq_of_mem_replicate hs]) hne

lemma entries_replicate (d : ν) (n size : ℕ) : entries (replicate n (replicate size (0, d))) = [] := by
  unfold entries
  rw [filter_eq_nil_iff]
  intro s hs
  obtain ⟨g, hg, hsg⟩ := mem_flatten.1 hs
  rw [eq_of_mem_replicate hg] at hsg
  simp [eq_of_mem_replicate hsg]

variable {d : ν} {map : List (SlotGroup ν)}

variable {e : ℕ} {s : ℕ × ν}

/-- **An entry is found on its way**, by a test that succeeds on its group and fails on the full groups besides. -/
theorem Placed.probe_of_mem (hp : Placed home d map) (test : SlotGroup ν → Option β) {b : β} (hg : map[e]? = some g)
    (hs : s ∈ g) (hne : s.1 ≠ 0) (hb : test g = some b)
    (hnone : ∀ e' g', e' ≠ e → map[e']? = some g' → Full g' → test g' = none) :
    probe test map map.length (home s.1) = some (e, b) := by
  have he : e < map.length := (List.getElem?_eq_some_iff.1 hg).1
  obtain ⟨k, hk, rfl, hbefore⟩ := exists_first_wayGroup map (home s.1) (P := fun e' => e' = e) ⟨e, he, rfl⟩
  refine probe_way (hp.home_lt s.1) hk (fun j hj g' hg' => ?_) hg hb
  refine hnone _ g' (hbefore j hj) hg' ?_
  exact hp.way _ g hg s hs hne j (fun i hi => hbefore i (lt_of_le_of_lt hi hj)) g' hg'

def FullUpTo (map : List (SlotGroup ν)) (start e : ℕ) : Prop :=
  ∃ k, wayGroup map start k = e ∧ ∀ j < k, ∀ g, map[wayGroup map start j]? = some g → Full g

/-- **A walk past the full groups** ends at the first group with an empty slot. -/
theorem Placed.probe_of_full (hp : Placed home d map) (test : SlotGroup ν → Option β)
    (hfull : ∀ g ∈ map, Full g → test g = none) (hopen : ∀ g ∈ map, ¬Full g → ∃ b, test g = some b)
    (hex : ∃ g ∈ map, ¬Full g) (h : ℕ) :
    ∃ e g b, map[e]? = some g ∧ test g = some b ∧ FullUpTo map (home h) e ∧
      probe test map map.length (home h) = some (e, b) := by
  obtain ⟨_, hg0, hnot⟩ := hex
  obtain ⟨e0, he0, rfl⟩ := getElem_of_mem hg0
  obtain ⟨k, hk, ⟨g, hg, hng⟩, hbefore⟩ := exists_first_wayGroup map (home h)
    (P := fun e => ∃ g, map[e]? = some g ∧ ¬Full g) ⟨e0, he0, _, getElem?_eq_getElem he0, hnot⟩
  have hfullBefore : ∀ j < k, ∀ g', map[wayGroup map (home h) j]? = some g' → Full g' := by
    intro j hj g' hg'
    by_contra hng'
    exact hbefore j hj ⟨g', hg', hng'⟩
  obtain ⟨b, hb⟩ := hopen g (mem_of_getElem? hg) hng
  refine ⟨_, g, b, hg, hb, ⟨k, rfl, hfullBefore⟩, ?_⟩
  exact probe_way (hp.home_lt h) hk
    (fun j hj g' hg' => hfull g' (mem_of_getElem? hg') (hfullBefore j hj g' hg')) hg hb

/-! ### Putting an entry -/

section SetSlot

variable (map : List (SlotGroup ν))

lemma length_setSlot (e i : ℕ) (s : ℕ × ν) : (setSlot map e i s).length = map.length :=
  length_modify _ _ _

lemma getElem?_setSlot (e i : ℕ) (s : ℕ × ν) (e' : ℕ) :
    (setSlot map e i s)[e']? = if e = e' then map[e']?.map (fun g => g.set i s) else map[e']? := by
  unfold setSlot
  rw [getElem?_modify]
  split
  · rfl
  · exact Option.map_id'

lemma wayGroup_setSlot (e i : ℕ) (s : ℕ × ν) (h k : ℕ) : wayGroup (setSlot map e i s) h k = wayGroup map h k := by
  unfold wayGroup
  rw [length_setSlot]

end SetSlot

lemma Full.set (hg : Full g) (i : ℕ) (hs : s.1 ≠ 0) : Full (g.set i s) := by
  intro t ht
  rcases mem_or_eq_of_mem_set ht with ht | rfl
  · exact hg t ht
  · exact hs

lemma entries_setSlot (hg : map[e]? = some g) (hi : firstEmpty g = some i) (hs : s.1 ≠ 0) :
    (entries (setSlot map e i s)).Perm (s :: entries map) := by
  obtain ⟨v, hv, -⟩ := firstEmpty_eq_some hi
  obtain ⟨he, rfl⟩ := List.getElem?_eq_some_iff.1 hg
  obtain ⟨hlt, hget⟩ := List.getElem?_eq_some_iff.1 hv
  have hset : setSlot map e i s = map.set e (map[e].set i s) := by
    rw [setSlot, modify_eq_set_getElem?, getElem?_eq_getElem he]
    rfl
  have hnew : (setSlot map e i s).flatten.Perm (s :: (map[e].eraseIdx i ++ (map.eraseIdx e).flatten)) := by
    rw [hset]
    exact (set_perm_cons_eraseIdx he _).flatten.trans ((set_perm_cons_eraseIdx hlt s).append_right _)
  have hold : ((0, v) :: (map[e].eraseIdx i ++ (map.eraseIdx e).flatten)).Perm map.flatten := by
    rw [← hget]
    exact ((getElem_cons_eraseIdx_perm hlt).append_right _).trans (getElem_cons_eraseIdx_perm he).flatten
  have hnew' := hnew.filter fun s => s.1 != 0
  have hold' := hold.filter fun s => s.1 != 0
  rw [filter_cons_of_pos (by simpa using hs)] at hnew'
  rw [filter_cons_of_neg (by simp)] at hold'
  exact hnew'.trans (hold'.cons s)

/-- **An entry put into the first empty slot on its way** keeps the invariant. -/
theorem Placed.set (hp : Placed home d map) (hg : map[e]? = some g) (hi : firstEmpty g = some i) (hs : s.1 ≠ 0)
    (hway : FullUpTo map (home s.1) e) : Placed home d (setSlot map e i s) := by
  obtain ⟨v, _, hlt⟩ := firstEmpty_eq_some hi
  -- the groups of the new table: the old ones, and the one with the entry
  have hcases : ∀ e' g', (setSlot map e i s)[e']? = some g' →
      (e' ≠ e ∧ map[e']? = some g') ∨ (e' = e ∧ g' = g.set i s) := by
    intro e' g' hg'
    rw [getElem?_setSlot] at hg'
    split at hg'
    · rename_i heq
      subst heq
      rw [hg] at hg'
      exact .inr ⟨rfl, (Option.some.inj hg').symm⟩
    · rename_i hne
      exact .inl ⟨Ne.symm hne, hg'⟩
  have hfull : ∀ (e' : ℕ), (∀ g', map[e']? = some g' → Full g') →
      ∀ g', (setSlot map e i s)[e']? = some g' → Full g' := by
    intro e' hold g' hg'
    rcases hcases e' g' hg' with ⟨-, hg'⟩ | ⟨rfl, rfl⟩
    · exact hold g' hg'
    · exact (hold g hg).set i hs
  refine ⟨?_, ?_, ?_, ?_⟩
  · intro h
    rw [length_setSlot]
    exact hp.home_lt h
  · intro g' hg' i' j' t t' hij ht ht' hne'
    obtain ⟨e', he'⟩ := getElem?_of_mem hg'
    rcases hcases e' g' he' with ⟨-, he'⟩ | ⟨rfl, rfl⟩
    · exact hp.front g' (mem_of_getElem? he') i' j' t t' hij ht ht' hne'
    · -- before the new entry all slots are occupied, behind it none is
      rcases lt_trichotomy i' i with hlt' | rfl | hgt
      · rw [getElem?_set_ne hlt'.ne'] at ht
        exact hlt i' t hlt' ht
      · obtain ⟨_, rfl⟩ := List.getElem?_eq_some_iff.1 ht
        rwa [getElem_set_self]
      · rw [getElem?_set_ne hgt.ne] at ht
        rw [getElem?_set_ne (hgt.trans_le hij).ne] at ht'
        exact hp.front g (mem_of_getElem? hg) i' j' t t' hij ht ht' hne'
  · intro g' hg' t ht ht0
    obtain ⟨e', he'⟩ := getElem?_of_mem hg'
    rcases hcases e' g' he' with ⟨-, he'⟩ | ⟨rfl, rfl⟩
    · exact hp.default g' (mem_of_getElem? he') t ht ht0
    · rcases mem_or_eq_of_mem_set ht with ht | rfl
      · exact hp.default g (mem_of_getElem? hg) t ht ht0
      · exact absurd ht0 hs
  · intro e' g' hg' t ht hne' k hk g'' hg''
    simp only [wayGroup_setSlot] at hk hg''
    refine hfull _ (fun w hw => ?_) g'' hg''
    rcases hcases e' g' hg' with ⟨-, hold⟩ | ⟨rfl, rfl⟩
    · exact hp.way e' g' hold t ht hne' k hk w hw
    · rcases mem_or_eq_of_mem_set ht with ht | rfl
      · exact hp.way _ g hg t ht hne' k hk w hw
      · obtain ⟨k0, hk0, hbefore⟩ := hway
        have hlt0 : k < k0 := by
          by_contra hle
          exact hk k0 (Nat.le_of_not_lt hle) hk0
        exact hbefore k hlt0 w hw

/-! ### Room -/

variable {size : ℕ}

lemma exists_not_full (hsize : ∀ g ∈ map, g.length = size) (hlt : (entries map).length < map.length * size) :
    ∃ g ∈ map, ¬Full g := by
  by_contra hall
  have hfull : ∀ g ∈ map, Full g := by
    intro g hg
    by_contra hng
    exact hall ⟨g, hg, hng⟩
  have hentries : entries map = map.flatten := by
    unfold entries
    rw [filter_eq_self]
    intro s hs
    obtain ⟨g, hg, hsg⟩ := mem_flatten.1 hs
    simpa using hfull g hg s hsg
  have hlen : map.flatten.length = map.length * size := by
    rw [length_flatten, map_congr_left hsize]
    simp
  rw [hentries, hlen] at hlt
  exact lt_irrefl _ hlt

lemma length_of_mem_setSlot (hsize : ∀ g ∈ map, g.length = size) (e i : ℕ) (s : ℕ × ν) :
    ∀ g ∈ setSlot map e i s, g.length = size := by
  intro g hg
  obtain ⟨_, he'⟩ := getElem?_of_mem hg
  rw [getElem?_setSlot] at he'
  split at he'
  · obtain ⟨g', hg', rfl⟩ := Option.map_eq_some_iff.1 he'
    rw [length_set]
    exact hsize g' (mem_of_getElem? hg')
  · exact hsize g (mem_of_getElem? he')

lemma ne_of_nodup_entries {γ : Type*} {f : ℕ × ν → γ} (hnd : ((entries map).map f).Nodup) {e' : ℕ}
    {g' : SlotGroup ν} {s' : ℕ × ν} (hee : e ≠ e') (hg : map[e]? = some g) (hg' : map[e']? = some g') (hs : s ∈ g)
    (hs' : s' ∈ g') (hne : s.1 ≠ 0) (hne' : s'.1 ≠ 0) : f s ≠ f s' := by
  have hflat : (entries map).map f = (map.map fun g => (g.filter fun s => s.1 != 0).map f).flatten := by
    unfold entries
    rw [filter_flatten, map_flatten, map_map]
    rfl
  rw [hflat, nodup_flatten] at hnd
  have hmem : ∀ {g : SlotGroup ν} {s : ℕ × ν}, s ∈ g → s.1 ≠ 0 → f s ∈ (g.filter fun s => s.1 != 0).map f := by
    intro g s hs hne
    exact mem_map.2 ⟨s, mem_filter.2 ⟨hs, by simpa using hne⟩, rfl⟩
  obtain ⟨he, rfl⟩ := List.getElem?_eq_some_iff.1 hg
  obtain ⟨he', rfl⟩ := List.getElem?_eq_some_iff.1 hg'
  have hdisj := pairwise_iff_getElem.1 hnd.2
  rcases lt_or_gt_of_ne hee with hlt | hlt
  · have := hdisj e e' (by simpa using he) (by simpa using he') hlt
    rw [getElem_map, getElem_map] at this
    exact fun heq => this (hmem hs hne) (heq ▸ hmem hs' hne')
  · have := hdisj e' e (by simpa using he') (by simpa using he) hlt
    rw [getElem_map, getElem_map] at this
    exact fun heq => this (hmem hs' hne') (heq ▸ hmem hs hne)

lemma mem_entries : s ∈ entries map ↔ (∃ (e : ℕ) (g : SlotGroup ν), map[e]? = some g ∧ s ∈ g) ∧ s.1 ≠ 0 := by
  unfold entries
  rw [mem_filter, mem_flatten]
  constructor
  · rintro ⟨⟨g, hg, hs⟩, hne⟩
    obtain ⟨e, he⟩ := getElem?_of_mem hg
    exact ⟨⟨e, g, he, hs⟩, by simpa using hne⟩
  · rintro ⟨⟨e, g, hg, hs⟩, hne⟩
    exact ⟨⟨g, mem_of_getElem? hg, hs⟩, by simpa using hne⟩

/-- The exponent of the number of groups of eight slots for a number of entries, at least 32 groups. -/
def tableBits (items : ℕ) : ℕ := Nat.clog 2 (max items 128 * 2 / 8)

lemma lt_slots_tableBits (items : ℕ) : items < 2 ^ tableBits items * 8 := by
  have h := Nat.le_pow_clog (b := 2) (by omega) (max items 128 * 2 / 8)
  unfold tableBits
  omega

lemma tableBits_pos (items : ℕ) : 0 < tableBits items := by
  refine Nat.clog_pos (by omega) ?_
  omega

lemma tableBits_lt {items : ℕ} (h : items ≤ 2 ^ 33) : tableBits items < 32 := by
  have hle : tableBits items ≤ 31 := (Nat.clog_le_iff_le_pow (by omega)).2 (by omega)
  omega

/-- **`insertEntry`**, with room in the table. -/
theorem Placed.insertEntry (hp : Placed home d map) (hsize : ∀ g ∈ map, g.length = size) (hs : s.1 ≠ 0)
    (hroom : (entries map).length < map.length * size) :
    ∃ map', insertEntry home map s = some map' ∧ Placed home d map' ∧ map'.length = map.length ∧
      (∀ g ∈ map', g.length = size) ∧ (entries map').Perm (s :: entries map) := by
  obtain ⟨e, g, i, hg, hi, hway, hprobe⟩ := hp.probe_of_full firstEmpty
    (fun g _ hfull => firstEmpty_eq_none_iff.2 hfull)
    (fun g _ hopen => Option.ne_none_iff_exists'.1 fun h => hopen (firstEmpty_eq_none_iff.1 h))
    (exists_not_full hsize hroom) s.1
  refine ⟨setSlot map e i s, ?_, hp.set hg hi hs hway, length_setSlot _ _ _ _, length_of_mem_setSlot hsize e i s,
    entries_setSlot hg hi hs⟩
  unfold Lib.insertEntry
  rw [hprobe]
  rfl

/-- **Entries, one after another**, with room for all of them. -/
theorem Placed.foldlM_insertEntry (hp : Placed home d map) (its : List (ℕ × ν)) (hne : ∀ s ∈ its, s.1 ≠ 0)
    (hsize : ∀ g ∈ map, g.length = size) (hroom : (entries map).length + its.length < map.length * size) :
    ∃ map', its.foldlM (Lib.insertEntry home) map = some map' ∧ Placed home d map' ∧ map'.length = map.length ∧
      (entries map').Perm (its ++ entries map) ∧ (∀ g ∈ map', g.length = size) := by
  induction its generalizing map with
  | nil => exact ⟨map, rfl, hp, rfl, .refl _, hsize⟩
  | cons s its ih =>
    rw [forall_mem_cons] at hne
    rw [length_cons] at hroom
    obtain ⟨_, hins, hp1, hlen1, hsize1, hperm1⟩ := hp.insertEntry hsize hne.1 (by omega)
    obtain ⟨map₂, hfold, hp2, hlen2, hperm2, hsize2⟩ := ih hp1 hne.2 hsize1 (by
      rw [hperm1.length_eq, length_cons, hlen1]
      omega)
    refine ⟨map₂, ?_, hp2, hlen2.trans hlen1, ?_, hsize2⟩
    · rw [foldlM_cons, hins]
      exact hfold
    · refine hperm2.trans ((Perm.append_left its hperm1).trans ?_)
      exact perm_middle

end Auron.Lib
