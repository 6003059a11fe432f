import PoolProse.Proofs.Rendering

/-!
# Pool names and their operators

A name that was read in one place is a name in any other where an operator follows it, so the start
of a binding is read back from its source.
-/
namespace PoolProse

open Text (isBlank isDigit blanks)

theorem Binding.symbol_head (op : Binding) {s : Text} :
    ∀ b ∈ (op.symbol ++ s).head?, isBlank b = false := by
  intro b hb
  cases op <;> (obtain rfl := Option.some.inj hb; rfl)

namespace Text

theorem split_unique {p : UInt8 → Bool} {u v x y : Text} (hu : ∀ b ∈ u, p b = true)
    (hv : ∀ b ∈ v, p b = true) (hx : ∀ b ∈ x.head?, p b = false)
    (hy : ∀ b ∈ y.head?, p b = false) (h : u ++ x = v ++ y) : u = v ∧ x = y := by
  rcases List.append_eq_append_iff.1 h with ⟨w, rfl, hw⟩ | ⟨w, rfl, hw⟩
  · cases w with
    | nil => exact ⟨(List.append_nil u).symm, hw⟩
    | cons b w =>
        have hb := hx b (by rw [hw]; rfl)
        rw [hv b (by simp)] at hb
        cases hb
  · cases w with
    | nil => exact ⟨List.append_nil v, hw.symm⟩
    | cons b w =>
        have hb := hy b (by rw [hw]; rfl)
        rw [hu b (by simp)] at hb
        cases hb

theorem dropWhile_append_of_inked {u v : Text} (hu : ∃ b ∈ u, isBlank b = false) :
    (u ++ v).dropWhile isBlank = u.dropWhile isBlank ++ v ∧ blanks (u ++ v) = blanks u := by
  induction u with
  | nil => simp at hu
  | cons a u ih =>
      cases ha : isBlank a with
      | false => simp [blanks, ha]
      | true =>
          obtain ⟨b, hb, hblank⟩ := hu
          have hmem : b ∈ u := by
            rcases List.mem_cons.1 hb with rfl | hb
            · rw [ha] at hblank
              cases hblank
            · exact hb
          obtain ⟨hdrop, hcount⟩ := ih ⟨b, hmem, hblank⟩
          simp only [blanks] at hcount
          simp [blanks, ha, hdrop, hcount]

end Text

namespace Token

/-! ## Names in other places -/

theorem operatorAt_append_some {t : Text} {r : Kind × Nat} (h : operatorAt t = some r) (u : Text) :
    operatorAt (t ++ u) = some r := by
  obtain ⟨k, n⟩ := r
  rcases operatorAt_cases h with ⟨rfl, rfl, v, rfl⟩ | ⟨op, v, rfl, rfl, rfl⟩
  · rfl
  · rw [List.append_assoc, operatorAt_symbol]

theorem endsName_append_true {t : Text} (ht : t ≠ []) (h : endsName t = true) (u : Text) :
    endsName (t ++ u) = true := by
  obtain ⟨b, t, rfl⟩ := List.exists_cons_of_ne_nil ht
  rw [List.cons_append]
  simp only [endsName, Bool.or_eq_true] at h ⊢
  refine h.imp_right fun h => ?_
  obtain ⟨r, hr⟩ := Option.isSome_iff_exists.1 h
  have happend := operatorAt_append_some hr u
  rw [List.cons_append] at happend
  simp [happend]

theorem dropWhile_ne_nil_of_inked {t : Text} (ht : ∃ b ∈ t, isBlank b = false) :
    t.dropWhile isBlank ≠ [] := by
  rw [Ne, List.dropWhile_eq_nil_iff]
  intro hall
  obtain ⟨b, hb, hblank⟩ := ht
  rw [hall b hb] at hblank
  cases hblank

theorem nameOver_append_true {t : Text} (ht : ∃ b ∈ t, isBlank b = false)
    (h : nameOver t = true) (u : Text) : nameOver (t ++ u) = true := by
  obtain ⟨hdrop, hcount⟩ := Text.dropWhile_append_of_inked (v := u) ht
  rw [nameOver, hdrop, hcount]
  rcases Bool.or_eq_true_iff.1 h with hends | hmark
  · rw [endsName_append_true (dropWhile_ne_nil_of_inked ht) hends, Bool.true_or]
  · obtain ⟨hpos, hmark⟩ := Bool.and_eq_true_iff.1 hmark
    have hstart : commentMark <+: t.dropWhile isBlank ++ u :=
      (List.isPrefixOf_iff_prefix.1 hmark).trans (List.prefix_append _ u)
    rw [hpos, List.isPrefixOf_iff_prefix.2 hstart, Bool.true_and, Bool.or_true]

/-- Behind the byte `a` the texts `s` and `s'` make the same operator and the same comment mark, or
neither makes any. -/
structure SameEdge (a : UInt8) (s s' : Text) : Prop where
  operator : operatorAt (a :: s') = operatorAt (a :: s)
  mark : commentMark.isPrefixOf (a :: s') = commentMark.isPrefixOf (a :: s)

section

variable {s s' v z : Text}

theorem operatorAt_append_congr (hv : v ≠ []) (h : ∀ a, v = [a] → SameEdge a s s') :
    operatorAt (v ++ s') = operatorAt (v ++ s) := by
  match v with
  | [] => exact absurd rfl hv
  | [a] => exact (h a rfl).operator
  | a :: b :: v => rfl

theorem commentMark_append_congr (hv : v ≠ []) (h : ∀ a, v = [a] → SameEdge a s s') :
    commentMark.isPrefixOf (v ++ s') = commentMark.isPrefixOf (v ++ s) := by
  match v with
  | [] => exact absurd rfl hv
  | [a] => exact (h a rfl).mark
  | a :: b :: v => rfl

theorem nameOver_append_congr (hz : ∃ b ∈ z, isBlank b = false)
    (h : ∀ a, z.dropWhile isBlank = [a] → SameEdge a s s') :
    nameOver (z ++ s') = nameOver (z ++ s) := by
  have hne := dropWhile_ne_nil_of_inked hz
  obtain ⟨hdrop, hcount⟩ := Text.dropWhile_append_of_inked (v := s) hz
  obtain ⟨hdrop', hcount'⟩ := Text.dropWhile_append_of_inked (v := s') hz
  have hoperator := operatorAt_append_congr hne h
  have hends : endsName (z.dropWhile isBlank ++ s') = endsName (z.dropWhile isBlank ++ s) := by
    obtain ⟨b, v, hv⟩ := List.exists_cons_of_ne_nil hne
    rw [hv, List.cons_append, List.cons_append] at hoperator ⊢
    simp only [endsName, hoperator]
  rw [nameOver, nameOver, hdrop, hdrop', hcount, hcount', hends, commentMark_append_congr hne h]

end

theorem sameEdge_space (a : UInt8) (u : Text) : SameEdge a [] (Ascii.space :: u) where
  operator := by
    by_cases hbar : a = Ascii.bar
    · rw [hbar]
      rfl
    by_cases hcolon : a = Ascii.colon
    · rw [hcolon]
      rfl
    by_cases hless : a = Ascii.less
    · rw [hless]
      rfl
    simp [operatorAt, hbar, hcolon, hless]
  mark := by
    have hspace : (Ascii.dash == Ascii.space) = false := rfl
    simp [commentMark, List.isPrefixOf, hspace]

theorem operatorAt_append_space {t : Text} (ht : t ≠ []) (u : Text) :
    operatorAt (t ++ Ascii.space :: u) = operatorAt t := by
  rw [operatorAt_append_congr ht fun a _ => sameEdge_space a u, List.append_nil]

theorem inked_of_last {x : Text} {b : UInt8} {y : Text}
    (h : ∀ a ∈ (x ++ b :: y).getLast?, isBlank a = false) : ∃ a ∈ b :: y, isBlank a = false := by
  refine ⟨(b :: y).getLast (by simp), List.getLast_mem _, h _ ?_⟩
  rw [List.getLast?_append, List.getLast?_eq_some_getLast (by simp)]
  rfl

theorem NameForm.alone {n rest : Text} (h : NameForm n rest) : NameForm n [] := by
  obtain ⟨b, y, rfl⟩ := List.exists_cons_of_ne_nil h.ne_nil
  have hfirst := h.first b rfl
  have hinner := h.inner [] b y rfl
  obtain ⟨hover, -⟩ := nameTail_append_iff.1 h.tail
  apply nameForm_of_nameTail hfirst
  · refine ⟨hinner.newline, hinner.backslash, hinner.bracket, ?_, ?_⟩
    · rw [List.append_nil, Option.eq_none_iff_forall_ne_some]
      intro r hr
      have hsome := operatorAt_append_some hr rest
      rw [List.cons_append, hinner.operator] at hsome
      cases hsome
    · intro hb
      rw [hfirst.1] at hb
      cases hb
  · rw [nameTail_append_iff]
    refine ⟨?_, rfl⟩
    intro x a z hcat
    rw [List.append_nil, ← Bool.not_eq_true]
    intro hself
    have hinked : ∃ c ∈ a :: z, isBlank c = false := by
      apply inked_of_last (x := b :: x)
      rw [List.cons_append, ← hcat]
      exact h.last
    have htrue := nameOver_append_true hinked hself rest
    rw [List.cons_append, hover x a z hcat] at htrue
    cases htrue

/-- A name is as long when an operator follows it. -/
theorem NameForm.tail_space {n s : Text} (h : NameForm n [])
    (hs : nameOver (Ascii.space :: s) = true) :
    nameTail (n.tail ++ Ascii.space :: s) = n.tail.length := by
  obtain ⟨b, y, rfl⟩ := List.exists_cons_of_ne_nil h.ne_nil
  obtain ⟨hover, -⟩ := nameTail_append_iff.1 h.tail
  rw [List.tail_cons, nameTail_append_iff]
  refine ⟨?_, hs⟩
  intro x a z hcat
  have hinked : ∃ c ∈ a :: z, isBlank c = false := by
    apply inked_of_last (x := b :: x)
    rw [List.cons_append, ← hcat]
    exact h.last
  rw [← List.cons_append, nameOver_append_congr hinked fun a _ => sameEdge_space a s]
  exact hover x a z hcat

/-! ## What the first byte of a token tells -/

section

variable {k : Kind} {read rest : Text} {b : UInt8}

theorem Formed.pipe_first (h : Formed .pipe read rest) (hb : read.head? = some b) :
    isBlank b = true ∨ b = Ascii.bar := by
  obtain ⟨before, after, rfl, hbefore, -, -⟩ := h.eq_pipe
  rcases before with _ | ⟨a, before⟩
  · exact Or.inr (Option.some.inj hb).symm
  · rw [← Option.some.inj hb]
    exact Or.inl (hbefore a (by simp))

theorem Formed.binding_first {op : Binding} (h : Formed (.binding op) read rest)
    (hb : read.head? = some b) : isBlank b = true ∨ b = Ascii.colon ∨ b = Ascii.less := by
  obtain ⟨before, after, rfl, hbefore, -, -⟩ := h.eq_binding
  rcases before with _ | ⟨a, before⟩
  · right
    cases op <;> simp [Binding.symbol] at hb <;> simp [← hb]
  · rw [← Option.some.inj hb]
    exact Or.inl (hbefore a (by simp))

theorem Formed.operator_found (h : Formed k read rest) (hk : k = .pipe ∨ ∃ op, k = .binding op) :
    ∃ before u n, read ++ rest = before ++ u ∧ (∀ b ∈ before, isBlank b = true) ∧
      (∀ b ∈ u.head?, isBlank b = false) ∧ operatorAt u = some (k, n) := by
  rcases hk with rfl | ⟨op, rfl⟩
  · obtain ⟨before, after, rfl, hbefore, -, -⟩ := h.eq_pipe
    refine ⟨before, Ascii.bar :: (after ++ rest), 1, by simp, hbefore, ?_, rfl⟩
    intro b hb
    obtain rfl := Option.some.inj hb
    rfl
  · obtain ⟨before, after, rfl, hbefore, -, -⟩ := h.eq_binding
    exact ⟨before, op.symbol ++ (after ++ rest), _, by simp, hbefore, op.symbol_head,
      operatorAt_symbol op _⟩

theorem Formed.number_of_first (h : Formed k read rest) (hb : read.head? = some b)
    (hdigit : isDigit b = true) : k = .number := by
  have hblank := isBlank_digit hdigit
  have hform := h
  cases h with
  | pipe =>
      rcases hform.pipe_first hb with h | rfl
      · rw [hblank] at h
        cases h
      · cases hdigit
  | binding =>
      rcases hform.binding_first hb with h | rfl | rfl
      · rw [hblank] at h
        cases h
      · cases hdigit
      · cases hdigit
  | @opening br =>
      obtain rfl := Option.some.inj hb
      cases br <;> cases hdigit
  | @closing br =>
      obtain rfl := Option.some.inj hb
      cases br <;> cases hdigit
  | escape =>
      obtain rfl := Option.some.inj hb
      cases hdigit
  | white _ hread =>
      rw [hread b (List.mem_of_mem_head? hb)] at hblank
      cases hblank
  | number => rfl
  | name h =>
      rw [(h.first b hb).2] at hdigit
      cases hdigit

theorem Formed.white_of_first (h : Formed k read rest) (hb : read.head? = some b)
    (hblank : isBlank b = true) : k = .white ∨ k = .pipe ∨ ∃ op, k = .binding op := by
  cases h with
  | pipe => exact Or.inr (Or.inl rfl)
  | @binding op => exact Or.inr (Or.inr ⟨op, rfl⟩)
  | @opening br =>
      obtain rfl := Option.some.inj hb
      rw [br.isBlank_opener] at hblank
      cases hblank
  | @closing br =>
      obtain rfl := Option.some.inj hb
      rw [br.isBlank_closer] at hblank
      cases hblank
  | escape =>
      obtain rfl := Option.some.inj hb
      cases hblank
  | white => exact Or.inl rfl
  | number _ hread =>
      rw [isBlank_digit (hread b (List.mem_of_mem_head? hb))] at hblank
      cases hblank
  | name h =>
      rw [(h.first b hb).1] at hblank
      cases hblank

theorem Formed.name_of_first (h : Formed k read rest) (hb : read.head? = some b)
    (hblank : isBlank b = false) (hdigit : isDigit b = false) (hbackslash : b ≠ Ascii.backslash)
    (hbracket : bracketKind b = none) (hoperator : operatorAt (read ++ rest) = none) :
    k = .name := by
  cases h with
  | @pipe before after _ hbefore =>
      rcases before with _ | ⟨a, before⟩
      · cases hoperator
      · obtain rfl := Option.some.inj hb
        rw [hbefore a (by simp)] at hblank
        cases hblank
  | @binding op before after _ hbefore =>
      rcases before with _ | ⟨a, before⟩
      · rw [List.nil_append, List.append_assoc, operatorAt_symbol] at hoperator
        cases hoperator
      · obtain rfl := Option.some.inj hb
        rw [hbefore a (by simp)] at hblank
        cases hblank
  | @opening br =>
      obtain rfl := Option.some.inj hb
      rw [bracketKind_opener] at hbracket
      cases hbracket
  | @closing br =>
      obtain rfl := Option.some.inj hb
      rw [bracketKind_closer] at hbracket
      cases hbracket
  | escape => exact absurd (Option.some.inj hb).symm hbackslash
  | white _ hread =>
      rw [hread b (List.mem_of_mem_head? hb)] at hblank
      cases hblank
  | number _ hread =>
      rw [hread b (List.mem_of_mem_head? hb)] at hdigit
      cases hdigit
  | name => rfl

end

/-! ## The start of a binding -/

section

variable {c : Context} {ts : List Token}

theorem Gapless.uncons {b : UInt8} {s : Text} (h : Gapless c ts)
    (htext : ts.flatMap text = b :: s) :
    ∃ t us c', ts = t :: us ∧ Formed t.kind t.text (us.flatMap text) ∧ t.text.head? = some b ∧
      Gapless c' us ∧ t.text ++ us.flatMap text = b :: s := by
  cases ts with
  | nil => cases htext
  | cons t us =>
      rw [List.flatMap_cons] at htext
      refine ⟨t, us, _, rfl, h.formed, ?_, h.2.2, htext⟩
      obtain ⟨a, u, hu⟩ := List.exists_cons_of_ne_nil h.text_ne_nil
      rw [hu] at htext ⊢
      exact congrArg some (List.cons.inj htext).1

theorem Gapless.number {d s : Text} (h : Gapless c ts) (hne : d ≠ [])
    (hd : ∀ b ∈ d, isDigit b = true) (hs : ∀ b ∈ s.head?, isDigit b = false)
    (htext : ts.flatMap text = d ++ s) :
    ∃ t us c', ts = t :: us ∧ t.kind = .number ∧ t.text = d ∧ Gapless c' us ∧
      us.flatMap text = s := by
  obtain ⟨b, d, rfl⟩ := List.exists_cons_of_ne_nil hne
  obtain ⟨t, us, c', rfl, hform, hb, hus, hcat⟩ := h.uncons htext
  have hk := hform.number_of_first hb (hd b (by simp))
  rw [hk] at hform
  cases hform with
  | number _ hread hrest =>
      obtain ⟨htext, hus'⟩ := Text.split_unique hread hd hrest hs hcat
      exact ⟨t, us, c', rfl, hk, htext, hus, hus'⟩

theorem Gapless.white {w s : Text} (h : Gapless c ts) (hne : w ≠ [])
    (hw : ∀ b ∈ w, isBlank b = true) (hs : blanks s = 0) (hoperator : operatorAt s = none)
    (htext : ts.flatMap text = w ++ s) :
    ∃ t us c', ts = t :: us ∧ t.kind = .white ∧ t.text = w ∧ Gapless c' us ∧
      us.flatMap text = s := by
  obtain ⟨b, w, rfl⟩ := List.exists_cons_of_ne_nil hne
  obtain ⟨t, us, c', rfl, hform, hb, hus, hcat⟩ := h.uncons htext
  rw [Text.blanks_eq_zero_iff] at hs
  rcases hform.white_of_first hb (hw b (by simp)) with hk | hk
  · rw [hk] at hform
    cases hform with
    | white _ hread hrest =>
        rw [Text.blanks_eq_zero_iff] at hrest
        obtain ⟨htext, hus'⟩ := Text.split_unique hread hw hrest hs hcat
        exact ⟨t, us, c', rfl, hk, htext, hus, hus'⟩
  · obtain ⟨before, u, n, hsplit, hbefore, hu, hfound⟩ := hform.operator_found hk
    obtain ⟨-, rfl⟩ := Text.split_unique hbefore hw hu hs (hsplit.symm.trans hcat)
    rw [hoperator] at hfound
    cases hfound

theorem Gapless.whites {w s : Text} (h : Gapless c ts) (hw : ∀ b ∈ w, isBlank b = true)
    (hs : blanks s = 0) (hoperator : operatorAt s = none) (htext : ts.flatMap text = w ++ s) :
    ∃ ws us c', ts = ws ++ us ∧ (∀ t ∈ ws, t.kind = .white) ∧ ws.flatMap text = w ∧
      Gapless c' us ∧ us.flatMap text = s := by
  by_cases hne : w = []
  · subst hne
    exact ⟨[], ts, c, rfl, by simp, rfl, h, htext⟩
  · obtain ⟨t, us, c', rfl, hk, rfl, hus, hrest⟩ := h.white hne hw hs hoperator htext
    exact ⟨[t], us, c', rfl, by simpa using hk, by simp, hus, hrest⟩

theorem Gapless.name {n s : Text} (h : Gapless c ts) (hn : NameForm n [])
    (hs : nameOver (Ascii.space :: s) = true) (htext : ts.flatMap text = n ++ Ascii.space :: s) :
    ∃ t us c', ts = t :: us ∧ t.kind = .name ∧ t.text = n ∧ Gapless c' us ∧
      us.flatMap text = Ascii.space :: s := by
  have hlength := hn.tail_space hs
  have hoperator := operatorAt_append_space hn.ne_nil s
  obtain ⟨b, y, rfl⟩ := List.exists_cons_of_ne_nil hn.ne_nil
  have hinner := hn.inner [] b y rfl
  rw [List.append_nil] at hinner
  obtain ⟨t, us, c', rfl, hform, hb, hus, hcat⟩ := h.uncons htext
  obtain ⟨hblank, hdigit⟩ := hn.first b rfl
  have hk := hform.name_of_first hb hblank hdigit hinner.backslash hinner.bracket (by
    rw [hcat]
    exact hoperator.trans hinner.operator)
  rw [hk] at hform
  obtain ⟨a, u, hu⟩ := List.exists_cons_of_ne_nil h.text_ne_nil
  have htail := hform.nameForm.tail
  rw [hu] at htail hcat
  obtain ⟨rfl, hsame⟩ := List.cons.inj hcat
  have hsame' : u ++ us.flatMap text = y ++ Ascii.space :: s := hsame
  rw [List.tail_cons] at htail hlength
  rw [hsame'] at htail
  obtain ⟨rfl, hus'⟩ := List.append_inj hsame' (htail.symm.trans hlength)
  exact ⟨t, us, c', rfl, hk, hu, hus, hus'⟩

theorem Gapless.binding {op : Binding} {s : Text} (h : Gapless c ts)
    (htext : ts.flatMap text = Ascii.space :: (op.symbol ++ s)) :
    ∃ t us c', ts = t :: us ∧ t.kind = .binding op ∧ Gapless c' us ∧
      us.flatMap text = s.dropWhile isBlank := by
  obtain ⟨t, us, c', rfl, hform, hb, hus, hcat⟩ := h.uncons htext
  have hspace : ∀ b ∈ [Ascii.space], isBlank b = true := by
    intro b hb
    rw [List.mem_singleton.1 hb]
    rfl
  have hcat' : t.text ++ us.flatMap text = [Ascii.space] ++ (op.symbol ++ s) := hcat
  rcases hform.white_of_first hb rfl with hk | hk
  · rw [hk] at hform
    cases hform with
    | white _ hread hrest hoperator =>
        rw [Text.blanks_eq_zero_iff] at hrest
        obtain ⟨-, hus'⟩ := Text.split_unique hread hspace hrest op.symbol_head hcat'
        rw [hus', operatorAt_symbol] at hoperator
        cases hoperator
  · obtain ⟨before, u, n, hsplit, hbefore, hu, hfound⟩ := hform.operator_found hk
    obtain ⟨-, rfl⟩ :=
      Text.split_unique hbefore hspace hu op.symbol_head (hsplit.symm.trans hcat')
    rw [operatorAt_symbol] at hfound
    have hkind : t.kind = .binding op := (Prod.mk.inj (Option.some.inj hfound)).1.symm
    rw [hkind] at hform
    obtain ⟨before, after, hread, hbefore, hafter, hrest⟩ := hform.eq_binding
    rw [hread, List.append_assoc, List.append_assoc] at hcat'
    obtain ⟨-, hsame⟩ := Text.split_unique hbefore hspace op.symbol_head op.symbol_head hcat'
    refine ⟨t, us, c', rfl, hkind, hus, ?_⟩
    rw [← List.append_cancel_left hsame, List.dropWhile_append_of_pos hafter,
      Text.dropWhile_of_blanks hrest]

end

/-- A text that may be the name of a pool: a name, a number, or a number and a name. -/
inductive PoolName : Text → Prop where
  | name {n : Text} (hn : NameForm n []) : PoolName n
  | number {d : Text} (hne : d ≠ []) (hd : ∀ b ∈ d, isDigit b = true) : PoolName d
  | both {d w n : Text} (hne : d ≠ []) (hd : ∀ b ∈ d, isDigit b = true)
      (hw : ∀ b ∈ w, isBlank b = true) (hn : NameForm n []) : PoolName (d ++ w ++ n)

theorem nameOver_symbol (op : Binding) (s : Text) :
    nameOver (Ascii.space :: (op.symbol ++ s)) = true := by
  have hblank : isBlank Ascii.space = true := rfl
  have hdrop : (op.symbol ++ s).dropWhile isBlank = op.symbol ++ s :=
    Text.dropWhile_of_blanks (Text.blanks_eq_zero_iff.2 op.symbol_head)
  have hends : endsName (op.symbol ++ s) = true := by
    cases op <;> rfl
  rw [nameOver, List.dropWhile_cons_of_pos hblank, hdrop, hends, Bool.true_or]

/-- A pool name and the operator after it are read back from their source. -/
theorem Gapless.binds {c : Context} {ts : List Token} {n s : Text} {op : Binding}
    (h : Gapless c ts) (hn : PoolName n)
    (htext : ts.flatMap text = n ++ Ascii.space :: (op.symbol ++ s)) :
    ∃ c' rest, Line.Binds ts n op rest ∧ Gapless c' rest ∧
      rest.flatMap text = s.dropWhile isBlank := by
  have hover := nameOver_symbol op s
  have hspace : ∀ b ∈ (Ascii.space :: (op.symbol ++ s)).head?, isDigit b = false := by
    intro b hb
    obtain rfl := Option.some.inj hb
    rfl
  cases hn with
  | name hn =>
      obtain ⟨t, us, c', rfl, hk, rfl, hus, hrest⟩ := h.name hn hover htext
      obtain ⟨o, vs, c'', rfl, ho, hvs, hcat⟩ := hus.binding hrest
      exact ⟨c'', vs, ⟨[t], o, rfl, .name hk, ho⟩, hvs, hcat⟩
  | number hne hd =>
      obtain ⟨t, us, c', rfl, hk, rfl, hus, hrest⟩ := h.number hne hd hspace htext
      obtain ⟨o, vs, c'', rfl, ho, hvs, hcat⟩ := hus.binding hrest
      exact ⟨c'', vs, ⟨[t], o, rfl, .number hk, ho⟩, hvs, hcat⟩
  | @both d w n hne hd hw hn =>
      obtain ⟨b, y, hy⟩ := List.exists_cons_of_ne_nil hn.ne_nil
      obtain ⟨hblank, hdigit⟩ := hn.first b (by rw [hy]; rfl)
      have hnumber : ∀ a ∈ (w ++ (n ++ Ascii.space :: (op.symbol ++ s))).head?,
          isDigit a = false := by
        intro a ha
        rcases w with _ | ⟨x, w⟩
        · rw [hy] at ha
          rwa [← Option.some.inj ha]
        · obtain rfl := Option.some.inj ha
          have hx := hw x (by simp)
          rw [← Bool.not_eq_true]
          intro hdigit
          rw [isBlank_digit hdigit] at hx
          cases hx
      have hfirst : blanks (n ++ Ascii.space :: (op.symbol ++ s)) = 0 := by
        rw [Text.blanks_eq_zero_iff, hy]
        intro a ha
        rwa [← Option.some.inj ha]
      have hoperator : operatorAt (n ++ Ascii.space :: (op.symbol ++ s)) = none := by
        have hinner := (hn.inner [] b y hy).operator
        rwa [List.append_nil, ← hy, ← operatorAt_append_space hn.ne_nil] at hinner
      rw [List.append_assoc, List.append_assoc] at htext
      obtain ⟨t, us, c₁, rfl, hk, rfl, hus, hrest⟩ := h.number hne hd hnumber htext
      obtain ⟨ws, vs, c₂, rfl, hws, rfl, hvs, hname⟩ := hus.whites hw hfirst hoperator hrest
      obtain ⟨u, xs, c₃, rfl, hu, rfl, hxs, hop⟩ := hvs.name hn hover hname
      obtain ⟨o, zs, c₄, rfl, ho, hzs, hcat⟩ := hxs.binding hop
      exact ⟨c₄, zs, ⟨t :: (ws ++ [u]), o, by simp, .both hk hws hu, ho⟩, hzs, hcat⟩

end Token

end PoolProse
