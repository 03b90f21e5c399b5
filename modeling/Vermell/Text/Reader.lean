import Vermell.Text.Trim

/-! Readers that take a value off the front of a list, and languages whose words denote values. A
reader reads a language when it takes exactly the words of it, wherever what follows a word cannot
be taken for more of the word. -/
namespace Text
variable {τ α β : Type*}

abbrev Reader (τ α : Type*) := List τ → Option (α × List τ)

structure Reads (p : Reader τ α) (L : List τ → α → Prop) (F : List τ → Prop) : Prop where
  sound : ∀ s a r, p s = some (a, r) → ∃ w, s = w ++ r ∧ L w a
  complete : ∀ w a r, L w a → F r → p (w ++ r) = some (a, r)

section
variable {p : Reader τ α} {L : List τ → α → Prop} {F : List τ → Prop}

/-- A reader that reaches the end has read a word of the language. -/
theorem Reads.eq_some_iff (h : Reads p L F) (hend : F []) (s : List τ) (a : α) :
    p s = some (a, []) ↔ L s a := by
  constructor
  · intro hp
    obtain ⟨w, rfl, hw⟩ := h.sound s a [] hp
    rwa [List.append_nil]
  · intro hw
    have hp := h.complete s a [] hw hend
    rwa [List.append_nil] at hp

/-- A language that a reader reads is unambiguous. -/
theorem Reads.unique (h : Reads p L F) (hend : F []) {w : List τ} {a b : α} (ha : L w a)
    (hb : L w b) : a = b := by
  have hab := ((h.eq_some_iff hend w a).mpr ha).symm.trans ((h.eq_some_iff hend w b).mpr hb)
  exact congrArg Prod.fst (Option.some.inj hab)

theorem Reads.map (h : Reads p L F) (f : α → β) :
    Reads (fun s => (p s).map fun x => (f x.1, x.2)) (fun w b => ∃ a, L w a ∧ f a = b) F := by
  constructor
  · intro s b r hp
    obtain ⟨⟨a, t⟩, ha, hb⟩ := Option.map_eq_some_iff.mp hp
    cases hb
    obtain ⟨w, hs, hw⟩ := h.sound s a t ha
    exact ⟨w, hs, a, hw, rfl⟩
  · rintro w _ r ⟨a, hw, rfl⟩ hr
    simp [h.complete w a r hw hr]

theorem Reads.congr (h : Reads p L F) {L' : List τ → α → Prop} (hL : ∀ w a, L w a ↔ L' w a) :
    Reads p L' F := by
  constructor
  · intro s a r hp
    obtain ⟨w, hs, hw⟩ := h.sound s a r hp
    exact ⟨w, hs, (hL w a).mp hw⟩
  · intro w a r hw
    exact h.complete w a r ((hL w a).mpr hw)

end

section
variable (blank : τ → Bool)

/-- Blanks end where something else follows, or nothing. -/
def Unblank (s : List τ) : Prop := ∀ c t, s = c :: t → blank c = false

variable {blank}

theorem unblank_cons {c : τ} {t : List τ} (hc : blank c = false) : Unblank blank (c :: t) := by
  intro c' t' h
  cases h
  exact hc

theorem unblank_dropWhile (blank : τ → Bool) (s : List τ) : Unblank blank (s.dropWhile blank) := by
  intro c t h
  apply head?_dropWhile blank s
  rw [h]
  rfl

theorem dropWhile_append {a t : List τ} (ha : ∀ c ∈ a, blank c = true) (ht : Unblank blank t) :
    (a ++ t).dropWhile blank = t := by
  apply dropWhile_front ha
  intro c hc
  obtain ⟨s, hs⟩ := List.head?_eq_some_iff.mp hc
  exact ht c s hs

theorem exists_blanks (blank : τ → Bool) (s : List τ) :
    ∃ a, s = a ++ s.dropWhile blank ∧ ∀ c ∈ a, blank c = true :=
  ⟨s.takeWhile blank, List.takeWhile_append_dropWhile.symm, fun _ => List.mem_takeWhile_imp⟩

end

section
variable (blank : τ → Bool) (comma : τ)

/-- One item or more with commas between them, and blanks around each. -/
inductive Separated (L : List τ → α → Prop) : List τ → List α → Prop
  | one {a w b x} : (∀ c ∈ a, blank c = true) → L w x → (∀ c ∈ b, blank c = true) →
      Separated L (a ++ w ++ b) [x]
  | more {a w b v x xs} : (∀ c ∈ a, blank c = true) → L w x → (∀ c ∈ b, blank c = true) →
      Separated L v xs → Separated L (a ++ w ++ b ++ comma :: v) (x :: xs)

variable {blank comma}

theorem Separated.imp {L L' : List τ → α → Prop} {w : List τ} {xs : List α}
    (h : Separated blank comma L w xs) (hL : ∀ w, ∀ x ∈ xs, L w x → L' w x) :
    Separated blank comma L' w xs := by
  induction h with
  | one ha hw hb => exact .one ha (hL _ _ (by simp) hw) hb
  | more ha hw hb _ ih =>
    exact .more ha (hL _ _ (by simp) hw) hb (ih fun w x hx => hL w x (List.mem_cons_of_mem _ hx))

/-- A condition on the values of the items is one on the list. -/
theorem separated_and_iff {L : List τ → α → Prop} {P : α → Prop} {w : List τ} {xs : List α} :
    Separated blank comma (fun w x => L w x ∧ P x) w xs ↔
      Separated blank comma L w xs ∧ ∀ x ∈ xs, P x := by
  constructor
  · intro h
    refine ⟨h.imp fun _ _ _ hx => hx.1, ?_⟩
    induction h with
    | one _ hw _ => simpa using hw.2
    | more _ hw _ _ ih => simpa using ⟨hw.2, ih⟩
  · rintro ⟨h, hP⟩
    exact h.imp fun _ x hx hw => ⟨hw, hP x hx⟩

/-- Blanks in front of the first item are its own. -/
theorem Separated.blanks_append {L : List τ → α → Prop} {a w : List τ} {xs : List α}
    (h : Separated blank comma L w xs) (ha : ∀ c ∈ a, blank c = true) :
    Separated blank comma L (a ++ w) xs := by
  have hboth {b : List τ} (hb : ∀ c ∈ b, blank c = true) : ∀ c ∈ a ++ b, blank c = true := by
    intro c hc
    exact (List.mem_append.mp hc).elim (ha c) (hb c)
  cases h with
  | one hb hw hc =>
    rw [← List.append_assoc, ← List.append_assoc]
    exact .one (hboth hb) hw hc
  | more hb hw hc hv =>
    rw [← List.append_assoc, ← List.append_assoc, ← List.append_assoc]
    exact .more (hboth hb) hw hc hv

theorem Separated.strip {L : List τ → α → Prop} {w : List τ} {xs : List α}
    (h : Separated blank comma L w xs) : ∃ a v x u, w = a ++ v ∧ (∀ c ∈ a, blank c = true) ∧
      Separated blank comma L v xs ∧ ∃ w', L w' x ∧ v = w' ++ u := by
  cases h with
  | @one a w b x ha hw hb =>
    exact ⟨a, w ++ b, x, b, by simp, ha, .one (a := []) (by simp) hw hb, w, hw, rfl⟩
  | @more a w b v x xs ha hw hb hv =>
    refine ⟨a, w ++ b ++ comma :: v, x, b ++ comma :: v, by simp, ha, ?_, w, hw, by simp⟩
    exact .more (a := []) (by simp) hw hb hv

variable (blank comma) (close : τ)

/-- The items, or none, and the closing token. -/
inductive Delimited (L : List τ → α → Prop) : List τ → List α → Prop
  | empty {a} : (∀ c ∈ a, blank c = true) → Delimited L (a ++ [close]) []
  | items {w xs} : Separated blank comma L w xs → Delimited L (w ++ [close]) xs

variable {blank comma close}

theorem delimited_and_iff {L : List τ → α → Prop} {P : α → Prop} {w : List τ} {xs : List α} :
    Delimited blank comma close (fun w x => L w x ∧ P x) w xs ↔
      Delimited blank comma close L w xs ∧ ∀ x ∈ xs, P x := by
  constructor
  · intro h
    cases h with
    | empty ha => exact ⟨.empty ha, by simp⟩
    | items h => exact ⟨.items (separated_and_iff.mp h).1, (separated_and_iff.mp h).2⟩
  · rintro ⟨h, hP⟩
    cases h with
    | empty ha => exact .empty ha
    | items h => exact .items (separated_and_iff.mpr ⟨h, hP⟩)

theorem Separated.map {β : Type*} {L : List τ → β → Prop} {f : α → β} {w : List τ} {xs : List α}
    (h : Separated blank comma (fun w x => L w (f x)) w xs) :
    Separated blank comma L w (xs.map f) := by
  induction h with
  | one ha hw hb => exact .one ha hw hb
  | more ha hw hb _ ih => exact .more ha hw hb ih

/-- A list of words for the images of its values. -/
theorem Delimited.map {β : Type*} {L : List τ → β → Prop} {f : α → β} {w : List τ} {xs : List α}
    (h : Delimited blank comma close (fun w x => L w (f x)) w xs) :
    Delimited blank comma close L w (xs.map f) := by
  cases h with
  | empty ha => exact .empty ha
  | items h => exact .items h.map

variable (blank comma close) in
/-- A list written with nothing but commas between its items. -/
theorem delimited_intercalate {L : List τ → α → Prop} (write : α → List τ) {xs : List α}
    (h : ∀ x ∈ xs, L (write x) x) :
    Delimited blank comma close L ([comma].intercalate (xs.map write) ++ [close]) xs := by
  have hnone : ∀ c ∈ ([] : List τ), blank c = true := by simp
  cases xs with
  | nil => exact .empty hnone
  | cons x xs =>
    refine .items ?_
    induction xs generalizing x with
    | nil =>
      have hone : Separated blank comma L ([] ++ write x ++ []) [x] :=
        .one hnone (h x (by simp)) hnone
      simpa using hone
    | cons y xs ih =>
      obtain ⟨hx, hxs⟩ := List.forall_mem_cons.mp h
      have hmore := Separated.more hnone hx hnone (ih y hxs)
      simpa using hmore

variable [DecidableEq τ] (blank comma close)

/-- The items up to the closing token. The fuel bounds the number of items. -/
def readSeparated (item : Reader τ α) : ℕ → Reader τ (List α)
  | 0, _ => none
  | fuel + 1, s =>
    match item (s.dropWhile blank) with
    | none => none
    | some (x, r) =>
      match r.dropWhile blank with
      | [] => none
      | c :: t =>
        if c = comma then (readSeparated item fuel t).map fun y => (x :: y.1, y.2)
        else if c = close then some ([x], t)
        else none

variable {blank comma close}

theorem readSeparated_sound {item : Reader τ α} {L : List τ → α → Prop}
    (hitem : ∀ s a r, item s = some (a, r) → ∃ w, s = w ++ r ∧ L w a) {fuel : ℕ} {s r : List τ}
    {xs : List α} (h : readSeparated blank comma close item fuel s = some (xs, r)) :
    ∃ w, s = w ++ close :: r ∧ Separated blank comma L w xs := by
  induction fuel generalizing s xs with
  | zero => cases h
  | succ fuel ih =>
    unfold readSeparated at h
    obtain ⟨a, hs, ha⟩ := exists_blanks blank s
    cases hx : item (s.dropWhile blank) with
    | none => simp [hx] at h
    | some y =>
      obtain ⟨x, t⟩ := y
      obtain ⟨w, hw, hL⟩ := hitem _ _ _ hx
      obtain ⟨b, ht, hb⟩ := exists_blanks blank t
      simp only [hx] at h
      cases hc : t.dropWhile blank with
      | nil => simp [hc] at h
      | cons c u =>
        have hsplit : s = a ++ w ++ b ++ c :: u := by
          rw [hs, hw, ht, hc]
          simp
        simp only [hc] at h
        split_ifs at h with hcomma hclose
        · subst hcomma
          obtain ⟨⟨ys, r'⟩, hrest, heq⟩ := Option.map_eq_some_iff.mp h
          cases heq
          obtain ⟨v, rfl, hv⟩ := ih hrest
          exact ⟨a ++ w ++ b ++ c :: v, by simp [hsplit], .more ha hL hb hv⟩
        · subst hclose
          cases h
          exact ⟨a ++ w ++ b, hsplit, .one ha hL hb⟩

/-- A separated list has fewer commas than tokens, so fuel beyond its length is enough. -/
theorem readSeparated_complete {item : Reader τ α} {L : List τ → α → Prop} {F : List τ → Prop}
    (hitem : ∀ w a r, L w a → F r → item (w ++ r) = some (a, r))
    (hstart : ∀ w a r, L w a → Unblank blank (w ++ r))
    (hF : ∀ c t, blank c = true ∨ c = comma ∨ c = close → F (c :: t))
    (hcomma : blank comma = false) (hclose : blank close = false) (hne : close ≠ comma)
    {w : List τ} {xs : List α} (h : Separated blank comma L w xs) (r : List τ) {fuel : ℕ}
    (hfuel : w.length < fuel) :
    readSeparated blank comma close item fuel (w ++ close :: r) = some (xs, r) := by
  -- what stands behind an item lets its reader stop
  have hfollow {b : List τ} (hb : ∀ c ∈ b, blank c = true) {c : τ} (hc : c = comma ∨ c = close)
      (t : List τ) : F (b ++ c :: t) := by
    cases b with
    | nil => exact hF c t (Or.inr hc)
    | cons c' b => exact hF c' _ (Or.inl (hb c' (by simp)))
  induction h generalizing fuel with
  | @one a w b x ha hw hb =>
    obtain ⟨fuel, rfl⟩ : ∃ n, fuel = n + 1 := ⟨fuel - 1, by omega⟩
    have hread := hitem w x _ hw (hfollow hb (Or.inr rfl) r)
    have hskip : (a ++ (w ++ (b ++ close :: r))).dropWhile blank = w ++ (b ++ close :: r) :=
      dropWhile_append ha (hstart w x _ hw)
    have hend : (b ++ close :: r).dropWhile blank = close :: r :=
      dropWhile_append hb (unblank_cons hclose)
    simp only [List.append_assoc]
    simp only [readSeparated, hskip, hread, hend, if_neg hne, if_true]
  | @more a w b v x xs ha hw hb _ ih =>
    obtain ⟨fuel, rfl⟩ : ∃ n, fuel = n + 1 := ⟨fuel - 1, by omega⟩
    have hread := hitem w x _ hw (hfollow hb (Or.inl rfl) (v ++ close :: r))
    have hskip : (a ++ (w ++ (b ++ comma :: (v ++ close :: r)))).dropWhile blank =
        w ++ (b ++ comma :: (v ++ close :: r)) := dropWhile_append ha (hstart w x _ hw)
    have hend : (b ++ comma :: (v ++ close :: r)).dropWhile blank =
        comma :: (v ++ close :: r) := dropWhile_append hb (unblank_cons hcomma)
    have hrest : readSeparated blank comma close item fuel (v ++ close :: r) = some (xs, r) := by
      apply ih
      simp only [List.length_append, List.length_cons] at hfuel
      omega
    simp only [List.append_assoc, List.cons_append]
    simp only [readSeparated, hskip, hread, hend, if_true, hrest, Option.map_some]

variable (blank comma close)

/-- The items, or none, and the closing token behind them. -/
def readDelimited (item : Reader τ α) : Reader τ (List α) := fun s =>
  let s := s.dropWhile blank
  if s.head? = some close then some ([], s.tail)
  else readSeparated blank comma close item (s.length + 1) s

variable {blank comma close}

/-- The loop over the items, behind the opening token, reads the delimited list. -/
theorem Reads.delimited {item : Reader τ α} {L : List τ → α → Prop} {F : List τ → Prop}
    (hitem : Reads item L F)
    (hstart : ∀ w a, L w a → ∃ c t, w = c :: t ∧ blank c = false ∧ c ≠ close)
    (hF : ∀ c t, blank c = true ∨ c = comma ∨ c = close → F (c :: t))
    (hcomma : blank comma = false) (hclose : blank close = false) (hne : close ≠ comma) :
    Reads (readDelimited blank comma close item) (Delimited blank comma close L)
      fun _ => True := by
  have hunblank : ∀ w a r, L w a → Unblank blank (w ++ r) := by
    intro w a r hw
    obtain ⟨c, t, rfl, hc, -⟩ := hstart w a hw
    exact unblank_cons hc
  constructor
  · intro s xs r h
    obtain ⟨a, hs, ha⟩ := exists_blanks blank s
    unfold readDelimited at h
    simp only at h
    split_ifs at h with hhead
    · cases h
      refine ⟨a ++ [close], ?_, .empty ha⟩
      rw [List.append_assoc, List.singleton_append, List.cons_head?_tail hhead]
      exact hs
    · obtain ⟨v, hv, hsep⟩ := readSeparated_sound hitem.sound h
      exact ⟨a ++ v ++ [close], by rw [hs, hv]; simp, .items (hsep.blanks_append ha)⟩
  · intro w xs r h _
    unfold readDelimited
    simp only
    cases h with
    | @empty a ha =>
      have hskip : (a ++ [close] ++ r).dropWhile blank = close :: r := by
        rw [List.append_assoc]
        exact dropWhile_append ha (unblank_cons hclose)
      rw [hskip]
      exact if_pos rfl
    | @items v _ hsep =>
      obtain ⟨a, v, x, u, rfl, ha, hsep, hx⟩ := hsep.strip
      obtain ⟨c, t, hc⟩ : ∃ c t, v ++ close :: r = c :: t ∧ blank c = false ∧ c ≠ close := by
        obtain ⟨w, hw, hv⟩ := hx
        obtain ⟨c, t, rfl, hc⟩ := hstart w x hw
        exact ⟨c, t ++ u ++ close :: r, by rw [hv]; simp, hc⟩
      have hskip : (a ++ v ++ [close] ++ r).dropWhile blank = v ++ close :: r := by
        rw [List.append_assoc, List.append_assoc]
        exact dropWhile_append ha (hc.1 ▸ unblank_cons hc.2.1)
      rw [hskip, if_neg (by rw [hc.1]; simpa using hc.2.2)]
      exact readSeparated_complete hitem.complete hunblank hF hcomma hclose hne hsep r
        (by simp only [List.length_append]; omega)

end

section

/-- Words of the language one behind the other. -/
inductive Repeated (L : List τ → α → Prop) : List τ → List α → Prop
  | nil : Repeated L [] []
  | cons {w v x xs} : L w x → Repeated L v xs → Repeated L (w ++ v) (x :: xs)

variable [DecidableEq τ] (close : τ)

/-- Items up to the closing token. The fuel bounds their number. -/
def readUntil (item : Reader τ α) : ℕ → Reader τ (List α)
  | 0, _ => none
  | _ + 1, [] => none
  | fuel + 1, c :: t =>
    if c = close then some ([], t)
    else
      match item (c :: t) with
      | none => none
      | some (x, r) => (readUntil item fuel r).map fun y => (x :: y.1, y.2)

variable {close}

theorem readUntil_sound {item : Reader τ α} {L : List τ → α → Prop}
    (hitem : ∀ c t a r, c ≠ close → item (c :: t) = some (a, r) →
      ∃ w, c :: t = w ++ r ∧ L w a) {fuel : ℕ} {s r : List τ}
    {xs : List α} (h : readUntil close item fuel s = some (xs, r)) :
    ∃ w, s = w ++ close :: r ∧ Repeated L w xs := by
  induction fuel generalizing s xs with
  | zero => cases h
  | succ fuel ih =>
    cases s with
    | nil => cases h
    | cons c t =>
      unfold readUntil at h
      split_ifs at h with hc
      · subst hc
        cases h
        exact ⟨[], rfl, .nil⟩
      · cases hx : item (c :: t) with
        | none => simp [hx] at h
        | some y =>
          obtain ⟨x, u⟩ := y
          simp only [hx] at h
          obtain ⟨⟨ys, r'⟩, hrest, heq⟩ := Option.map_eq_some_iff.mp h
          cases heq
          obtain ⟨w, hw, hL⟩ := hitem _ _ _ _ hc hx
          obtain ⟨v, rfl, hv⟩ := ih hrest
          exact ⟨w ++ v, by simp [hw], .cons hL hv⟩

theorem readUntil_complete {item : Reader τ α} {L : List τ → α → Prop}
    (hitem : ∀ w a r, L w a → item (w ++ r) = some (a, r))
    (hstart : ∀ w a, L w a → ∃ c t, w = c :: t ∧ c ≠ close) {w : List τ} {xs : List α}
    (h : Repeated L w xs) (r : List τ) {fuel : ℕ} (hfuel : w.length < fuel) :
    readUntil close item fuel (w ++ close :: r) = some (xs, r) := by
  induction h generalizing fuel with
  | nil =>
    obtain ⟨fuel, rfl⟩ : ∃ n, fuel = n + 1 := ⟨fuel - 1, by omega⟩
    simp [readUntil]
  | @cons w v x xs hw _ ih =>
    obtain ⟨fuel, rfl⟩ : ∃ n, fuel = n + 1 := ⟨fuel - 1, by omega⟩
    have hread := hitem w x (v ++ close :: r) hw
    obtain ⟨c, t, rfl, hc⟩ := hstart w x hw
    have hrest : readUntil close item fuel (v ++ close :: r) = some (xs, r) := by
      apply ih
      simp only [List.length_append, List.length_cons] at hfuel
      omega
    simp only [List.cons_append, List.append_assoc] at hread ⊢
    simp only [readUntil, if_neg hc, hread, hrest, Option.map_some]

/-- The loop reads the items and the closing token, which no item starts with. The reader of an item
is never asked about the closing token. -/
theorem reads_until {item : Reader τ α} {L : List τ → α → Prop}
    (hsound : ∀ c t a r, c ≠ close → item (c :: t) = some (a, r) →
      ∃ w, c :: t = w ++ r ∧ L w a)
    (hcomplete : ∀ w a r, L w a → item (w ++ r) = some (a, r))
    (hstart : ∀ w a, L w a → ∃ c t, w = c :: t ∧ c ≠ close) :
    Reads (fun s => readUntil close item (s.length + 1) s)
      (fun w xs => ∃ v, w = v ++ [close] ∧ Repeated L v xs) fun _ => True := by
  constructor
  · intro s xs r h
    obtain ⟨v, hs, hv⟩ := readUntil_sound hsound h
    exact ⟨v ++ [close], by simp [hs], v, rfl, hv⟩
  · rintro _ xs r ⟨v, rfl, hv⟩ -
    have hlen : v.length < (v ++ [close] ++ r).length + 1 := by
      simp only [List.length_append]
      omega
    simpa using readUntil_complete hcomplete hstart hv r hlen

end

end Text
