import Mathlib.Data.List.Nodup
import Mathlib.Tactic

/-! Tables as association lists whose entries are filed under a key of their name. Filing replaces
the value under a key that is there, and keeps the name and the place of its entry. -/
namespace Assoc
variable {α β κ : Type*} (key : α → κ)

def keys (l : List (α × β)) : List κ := l.map fun e => key e.1

variable [DecidableEq κ]

/-- The value filed under `k`. -/
def get (k : κ) : List (α × β) → Option β
  | [] => none
  | (a, b) :: rest => if key a = k then some b else get k rest

def put (a : α) (b : β) : List (α × β) → List (α × β)
  | [] => [(a, b)]
  | (a', b') :: rest => if key a' = key a then (a', b) :: rest else (a', b') :: put a b rest

/-- Entries filed one after the other. -/
def putAll (es l : List (α × β)) : List (α × β) := es.foldl (fun l e => put key e.1 e.2 l) l

theorem get_eq_none_iff {k : κ} {l : List (α × β)} : get key k l = none ↔ k ∉ keys key l := by
  induction l with
  | nil => simp [get, keys]
  | cons e rest ih =>
    obtain ⟨a, b⟩ := e
    by_cases h : key a = k
    · simp [get, keys, h]
    · simpa [get, keys, h, eq_comm (a := k)] using ih

theorem mem_of_get {k : κ} {b : β} {l : List (α × β)} (h : get key k l = some b) :
    b ∈ l.map Prod.snd := by
  induction l with
  | nil => cases h
  | cons e rest ih =>
    obtain ⟨a, b'⟩ := e
    rw [get] at h
    split_ifs at h
    · exact Option.some.inj h ▸ List.mem_cons_self
    · exact List.mem_cons_of_mem _ (ih h)

theorem get_append (k : κ) (l l' : List (α × β)) :
    get key k (l ++ l') = (get key k l).or (get key k l') := by
  induction l with
  | nil => simp [get]
  | cons e rest ih =>
    obtain ⟨a, b⟩ := e
    by_cases h : key a = k <;> simp [get, h, ih]

theorem get_put (k : κ) (a : α) (b : β) (l : List (α × β)) :
    get key k (put key a b l) = if key a = k then some b else get key k l := by
  induction l with
  | nil => rfl
  | cons e rest ih =>
    obtain ⟨a', b'⟩ := e
    by_cases hput : key a' = key a
    · by_cases h : key a = k <;> simp [put, get, hput, h]
    · by_cases h : key a' = k
      · have hne : key a ≠ k := fun heq => hput (h.trans heq.symm)
        rw [put, if_neg hput, get, if_pos h, if_neg hne, get, if_pos h]
      · simp [put, get, hput, h, ih]

/-- The entry that was filed last wins. -/
theorem get_putAll (k : κ) (es l : List (α × β)) :
    get key k (putAll key es l) = (get key k es.reverse).or (get key k l) := by
  induction es generalizing l with
  | nil => rfl
  | cons e rest ih =>
    have hrest := ih (put key e.1 e.2 l)
    rw [List.reverse_cons, get_append, Option.or_assoc]
    by_cases h : key e.1 = k
    · simpa [putAll, get_put, get, h] using hrest
    · simpa [putAll, get_put, get, h] using hrest

theorem keys_put (a : α) (b : β) (l : List (α × β)) :
    keys key (put key a b l) =
      if key a ∈ keys key l then keys key l else keys key l ++ [key a] := by
  induction l with
  | nil => rfl
  | cons e rest ih =>
    obtain ⟨a', b'⟩ := e
    by_cases hput : key a' = key a
    · simp [put, keys, hput]
    · have hcons : keys key ((a', b') :: put key a b rest) =
          key a' :: keys key (put key a b rest) := rfl
      rw [put, if_neg hput, hcons, ih]
      by_cases hmem : key a ∈ keys key rest
      · simp [keys] at hmem ⊢
        simp [hmem]
      · have hmem' : key a ∉ keys key ((a', b') :: rest) := by
          intro h
          cases List.mem_cons.mp h with
          | inl h =>
            exact hput h.symm
          | inr h =>
            exact hmem h
        rw [if_neg hmem, if_neg hmem']
        rfl

theorem nodup_keys_put {a : α} {b : β} {l : List (α × β)} (h : (keys key l).Nodup) :
    (keys key (put key a b l)).Nodup := by
  rw [keys_put]
  split_ifs with hmem
  · exact h
  · refine List.nodup_append.mpr ⟨h, by simp, ?_⟩
    intro k hk k' hk' heq
    rw [List.mem_singleton] at hk'
    exact hmem (hk' ▸ heq ▸ hk)

/-- An entry behind a filing was there before, or has the new value under the filed key. -/
theorem mem_put {a : α} {b : β} {l : List (α × β)} {e : α × β} (h : e ∈ put key a b l) :
    e ∈ l ∨ (e.2 = b ∧ key e.1 = key a ∧ (e.1 = a ∨ ∃ b', (e.1, b') ∈ l)) := by
  induction l with
  | nil =>
    obtain rfl := List.mem_singleton.mp h
    exact Or.inr ⟨rfl, rfl, Or.inl rfl⟩
  | cons e' rest ih =>
    obtain ⟨a', b'⟩ := e'
    by_cases hput : key a' = key a
    · rw [put, if_pos hput] at h
      rcases List.mem_cons.mp h with rfl | h
      · exact Or.inr ⟨rfl, hput, Or.inr ⟨b', List.mem_cons_self⟩⟩
      · exact Or.inl (List.mem_cons_of_mem _ h)
    · rw [put, if_neg hput] at h
      rcases List.mem_cons.mp h with rfl | h
      · exact Or.inl List.mem_cons_self
      · refine (ih h).imp (List.mem_cons_of_mem _) ?_
        rintro ⟨hb, hkey, ha⟩
        refine ⟨hb, hkey, ha.imp_right ?_⟩
        rintro ⟨c, hc⟩
        exact ⟨c, List.mem_cons_of_mem _ hc⟩

/-- What the names of a table and of the entries filed in it have in common, all names keep. -/
theorem names_putAll {P : α → Prop} {es l : List (α × β)} (hes : ∀ e ∈ es, P e.1)
    (hl : ∀ e ∈ l, P e.1) : ∀ e ∈ putAll key es l, P e.1 := by
  induction es generalizing l with
  | nil => exact hl
  | cons f rest ih =>
    obtain ⟨hf, hrest⟩ := List.forall_mem_cons.mp hes
    refine ih hrest ?_
    intro e he
    rcases mem_put key he with hold | ⟨-, -, hname | ⟨b, hold⟩⟩
    · exact hl e hold
    · exact hname ▸ hf
    · exact hl (e.1, b) hold

theorem get_eq_some_iff {k : κ} {b : β} {l : List (α × β)} (h : (keys key l).Nodup) :
    get key k l = some b ↔ ∃ a, (a, b) ∈ l ∧ key a = k := by
  induction l with
  | nil => simp [get]
  | cons e rest ih =>
    obtain ⟨a, b'⟩ := e
    obtain ⟨hnot, hrest⟩ := List.nodup_cons.mp h
    by_cases hkey : key a = k
    · have hnone : ∀ a', (a', b) ∈ rest → key a' ≠ k := by
        intro a' hmem heq
        exact hnot (List.mem_map.mpr ⟨_, hmem, heq.trans hkey.symm⟩)
      rw [get, if_pos hkey]
      constructor
      · rintro ⟨⟩
        exact ⟨a, List.mem_cons_self, hkey⟩
      · rintro ⟨a', hmem, heq⟩
        cases List.mem_cons.mp hmem with
        | inl hhead =>
          cases hhead
          rfl
        | inr hmem =>
          exact absurd heq (hnone a' hmem)
    · rw [get, if_neg hkey, ih hrest]
      constructor
      · rintro ⟨a', hmem, heq⟩
        exact ⟨a', List.mem_cons_of_mem _ hmem, heq⟩
      · rintro ⟨a', hmem, heq⟩
        cases List.mem_cons.mp hmem with
        | inl hhead =>
          cases hhead
          exact absurd heq hkey
        | inr hmem =>
          exact ⟨a', hmem, heq⟩

theorem nodup_keys_putAll {es l : List (α × β)} (h : (keys key l).Nodup) :
    (keys key (putAll key es l)).Nodup := by
  induction es generalizing l with
  | nil => exact h
  | cons e rest ih => exact ih (nodup_keys_put key h)

/-- The order of entries under different keys does not matter. -/
theorem get_reverse {l : List (α × β)} (h : (keys key l).Nodup) (k : κ) :
    get key k l.reverse = get key k l := by
  have hreverse : (keys key l.reverse).Nodup := by
    rw [keys, List.map_reverse]
    exact List.nodup_reverse.mpr h
  ext b
  rw [get_eq_some_iff key hreverse, get_eq_some_iff key h]
  simp only [List.mem_reverse]

theorem get_map {γ : Type*} (f : γ → α × β) (k : κ) (l : List γ) :
    get key k (l.map f) = (l.find? fun c => key (f c).1 = k).map fun c => (f c).2 := by
  induction l with
  | nil => rfl
  | cons c rest ih => by_cases h : key (f c).1 = k <;> simp [get, h, ih]

/-- A table without its entries under `k`. -/
def erase (k : κ) (l : List (α × β)) : List (α × β) := l.filter fun e => key e.1 ≠ k

theorem get_erase (k k' : κ) (l : List (α × β)) :
    get key k (erase key k' l) = if k' = k then none else get key k l := by
  induction l with
  | nil => simp [erase, get]
  | cons e rest ih =>
    obtain ⟨a, b⟩ := e
    by_cases herased : key a = k'
    · by_cases h : k' = k <;> simpa [erase, get, herased, h] using ih
    · by_cases h : key a = k
      · have hne : k' ≠ k := fun heq => herased (h.trans heq.symm)
        simp [erase, get, h, hne, hne.symm]
      · simpa [erase, get, herased, h] using ih

/-- The entries of a table under `k`. -/
def under (k : κ) (l : List (α × β)) : List (α × β) := l.filter fun e => key e.1 = k

theorem under_put (k : κ) (a : α) (b : β) (l : List (α × β)) :
    under key k (put key a b l) =
      if key a = k then put key a b (under key k l) else under key k l := by
  induction l with
  | nil => by_cases h : key a = k <;> simp [under, put, h]
  | cons e rest ih =>
    obtain ⟨a', b'⟩ := e
    by_cases hput : key a' = key a
    · by_cases h : key a = k <;> simp [under, put, hput, h]
    · by_cases h : key a = k
      · by_cases h' : key a' = k
        · exact absurd (h'.trans h.symm) hput
        · simpa [under, put, hput, h, h'] using ih
      · rw [if_neg h] at ih ⊢
        rw [put, if_neg hput]
        by_cases h' : key a' = k <;> simpa [under, h'] using ih

/-- Entries under other keys have no say in what is filed under `k`. -/
theorem under_putAll (k : κ) (es l : List (α × β)) :
    under key k (putAll key es l) = putAll key (under key k es) (under key k l) := by
  induction es generalizing l with
  | nil => rfl
  | cons e rest ih =>
    have hrest := ih (put key e.1 e.2 l)
    rw [under_put] at hrest
    by_cases h : key e.1 = k
    · simpa [putAll, under, h] using hrest
    · simpa [putAll, under, h] using hrest

theorem mem_under_iff {k : κ} {l : List (α × β)} {e : α × β} :
    e ∈ under key k l ↔ e ∈ l ∧ key e.1 = k := by
  simp [under]

theorem under_eq_nil_iff {k : κ} {l : List (α × β)} : under key k l = [] ↔ k ∉ keys key l := by
  simp [under, keys, List.filter_eq_nil_iff]

/-- Under distinct keys an entry is alone. -/
theorem under_of_nodup {l : List (α × β)} (h : (keys key l).Nodup) {e : α × β} (he : e ∈ l) :
    under key (key e.1) l = [e] := by
  induction l with
  | nil => cases he
  | cons f rest ih =>
    obtain ⟨hf, hrest⟩ := List.nodup_cons.mp h
    have hcons : under key (key e.1) (f :: rest) =
        if key f.1 = key e.1 then f :: under key (key e.1) rest else under key (key e.1) rest := by
      simp [under, List.filter_cons]
    rw [hcons]
    cases List.mem_cons.mp he with
    | inl heq =>
      subst heq
      rw [if_pos rfl, (under_eq_nil_iff key).mpr hf]
    | inr hmem =>
      have hne : key f.1 ≠ key e.1 := by
        intro heq
        exact hf (List.mem_map.mpr ⟨e, hmem, heq.symm⟩)
      rw [if_neg hne, ih hrest hmem]

/-- Under distinct keys the entries under one are what the lookup finds. -/
theorem under_eq_get {l : List (α × β)} (h : (keys key l).Nodup) (k : κ) :
    (under key k l).map Prod.snd = (get key k l).toList := by
  cases hget : get key k l with
  | none =>
    rw [(under_eq_nil_iff key).mpr ((get_eq_none_iff key).mp hget)]
    rfl
  | some b =>
    obtain ⟨a, hmem, rfl⟩ := (get_eq_some_iff key h).mp hget
    rw [under_of_nodup key h hmem]
    rfl

theorem under_append (k : κ) (l l' : List (α × β)) :
    under key k (l ++ l') = under key k l ++ under key k l' := List.filter_append l l'

theorem keys_putAll {es l : List (α × β)} {k : κ} (h : k ∈ keys key (putAll key es l)) :
    k ∈ keys key es ∨ k ∈ keys key l := by
  by_contra hnone
  obtain ⟨hes, hl⟩ := not_or.mp hnone
  have hrev : k ∉ keys key es.reverse := by simpa [keys] using hes
  refine (get_eq_none_iff key).mp ?_ h
  rw [get_putAll, (get_eq_none_iff key).mpr hrev, (get_eq_none_iff key).mpr hl]
  rfl

omit [DecidableEq κ] in
theorem mem_keys_of_mem {e : α × β} {l : List (α × β)} (h : e ∈ l) : key e.1 ∈ keys key l :=
  List.mem_map.mpr ⟨e, h, rfl⟩

/-- The defaults under whose keys nothing is filed. -/
def missing (defaults l : List (α × β)) : List (α × β) :=
  defaults.filter fun e => key e.1 ∉ keys key l

/-- A table with its missing defaults, some in front of it and some behind. -/
def fill (front l back : List (α × β)) : List (α × β) :=
  missing key front l ++ (l ++ missing key back l)

theorem mem_missing_iff {e : α × β} {defaults l : List (α × β)} :
    e ∈ missing key defaults l ↔ e ∈ defaults ∧ key e.1 ∉ keys key l := by
  simp [missing]

theorem mem_fill_iff {front l back : List (α × β)} {e : α × β} : e ∈ fill key front l back ↔
    e ∈ l ∨ e ∈ front ++ back ∧ key e.1 ∉ keys key l := by
  simp only [fill, List.mem_append, mem_missing_iff]
  tauto

/-- What a filled table holds under a key depends on what the table holds under it. -/
theorem mem_fill_congr {front l l' back : List (α × β)} {e : α × β}
    (h : under key (key e.1) l = under key (key e.1) l') :
    e ∈ fill key front l back ↔ e ∈ fill key front l' back := by
  have hmem : e ∈ l ↔ e ∈ l' := by
    have hunder := congrArg (e ∈ ·) h
    simpa [mem_under_iff] using hunder
  have hkeys (t : List (α × β)) : key e.1 ∈ keys key t ↔ under key (key e.1) t ≠ [] := by
    simp [keys, under, List.filter_eq_nil_iff]
  rw [mem_fill_iff, mem_fill_iff, hmem, hkeys, hkeys, h]

theorem nodup_keys_fill {front l back : List (α × β)} (hl : (keys key l).Nodup)
    (hd : (keys key (front ++ back)).Nodup) : (keys key (fill key front l back)).Nodup := by
  have hperm : (fill key front l back).Perm (l ++ missing key (front ++ back) l) := by
    have happend : missing key (front ++ back) l = missing key front l ++ missing key back l :=
      List.filter_append front back
    rw [happend, ← List.append_assoc, fill, ← List.append_assoc]
    exact List.perm_append_comm.append_right _
  have hmissing : (keys key (missing key (front ++ back) l)).Nodup :=
    hd.sublist (List.filter_sublist.map _)
  refine (hperm.map fun e => key e.1).nodup_iff.mpr ?_
  rw [List.map_append]
  refine List.nodup_append.mpr ⟨hl, hmissing, ?_⟩
  intro k hk k' hk' heq
  obtain ⟨e, he, rfl⟩ := List.mem_map.mp hk'
  exact (mem_missing_iff key).mp he |>.2 (heq ▸ hk)

theorem get_missing (k : κ) (defaults l : List (α × β)) :
    get key k (missing key defaults l) = if k ∈ keys key l then none else get key k defaults := by
  induction defaults with
  | nil => simp [missing, get]
  | cons e rest ih =>
    obtain ⟨a, b⟩ := e
    by_cases hmem : key a ∈ keys key l
    · have hskip : missing key ((a, b) :: rest) l = missing key rest l := by simp [missing, hmem]
      rw [hskip, ih, get]
      by_cases h : key a = k
      · simp [← h, hmem]
      · rw [if_neg h]
    · have hkeep : missing key ((a, b) :: rest) l = (a, b) :: missing key rest l := by
        simp [missing, hmem]
      rw [hkeep, get, ih, get]
      by_cases h : key a = k
      · simp [← h, hmem]
      · simp [h]

/-- What is filed wins over a default. -/
theorem get_fill (k : κ) (front l back : List (α × β)) :
    get key k (fill key front l back) = (get key k l).or (get key k (front ++ back)) := by
  rw [fill, get_append, get_append, get_missing, get_missing, get_append]
  by_cases hk : k ∈ keys key l
  · obtain ⟨b, hb⟩ := Option.ne_none_iff_exists'.mp fun h => (get_eq_none_iff key).mp h hk
    simp [hk, hb]
  · simp [hk, (get_eq_none_iff key).mpr hk]

end Assoc
