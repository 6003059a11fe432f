import PoolProse.Proofs.Lexeme

/-!
# No lexeme looks beyond a newline

What follows the first newline of the unread text has no part in the next lexeme. After a newline
token the context is the one at the start of a document. Together these say that the text below a
newline token is scanned as a document of its own.
-/
namespace PoolProse

namespace Text

variable {t u : Text} {p : UInt8 → Bool}

theorem isPrefixOf_append_of_newline (v : Text) (hv : Ascii.newline ∉ v.dropLast)
    (ht : Ascii.newline ∈ t) : v.isPrefixOf (t ++ u) = v.isPrefixOf t := by
  induction v generalizing t with
  | nil => simp
  | cons a v ih =>
      cases t with
      | nil => simp at ht
      | cons b t =>
          rw [List.cons_append, List.isPrefixOf_cons_cons, List.isPrefixOf_cons_cons]
          by_cases hab : a = b
          · cases v with
            | nil => rw [List.isPrefixOf_nil_left, List.isPrefixOf_nil_left]
            | cons a' v =>
                rw [List.dropLast_cons_cons, List.mem_cons, not_or] at hv
                have hmem : Ascii.newline ∈ t := by
                  rcases List.mem_cons.1 ht with hb | hmem
                  · exact absurd (hb.trans hab.symm) hv.1
                  · exact hmem
                rw [ih hv.2 hmem]
          · rw [beq_false_of_ne hab, Bool.false_and, Bool.false_and]

theorem takeWhile_append_of_newline (hp : p Ascii.newline = false) (ht : Ascii.newline ∈ t) :
    (t ++ u).takeWhile p = t.takeWhile p := by
  induction t with
  | nil => simp at ht
  | cons b t ih =>
      rw [List.cons_append, List.takeWhile_cons, List.takeWhile_cons]
      cases hb : p b with
      | false => rfl
      | true =>
          have hmem : Ascii.newline ∈ t := by
            rcases List.mem_cons.1 ht with rfl | hmem
            · rw [hp] at hb
              cases hb
            · exact hmem
          rw [ih hmem]

theorem newline_mem_dropWhile (hp : p Ascii.newline = false) (ht : Ascii.newline ∈ t) :
    Ascii.newline ∈ t.dropWhile p := by
  rw [← List.takeWhile_append_dropWhile (p := p) (l := t)] at ht
  rcases List.mem_append.1 ht with hmem | hmem
  · have hn := List.all_eq_true.1 List.all_takeWhile _ hmem
    rw [hp] at hn
    cases hn
  · exact hmem

theorem blanks_append_of_newline (ht : Ascii.newline ∈ t) : blanks (t ++ u) = blanks t := by
  rw [blanks, takeWhile_append_of_newline rfl ht, blanks]

theorem newline_mem_drop_blanks (ht : Ascii.newline ∈ t) : Ascii.newline ∈ t.drop (blanks t) := by
  rw [blanks, drop_takeWhile_length]
  exact newline_mem_dropWhile rfl ht

theorem drop_blanks_append (t u : Text) :
    (t ++ u).drop (blanks t) = t.drop (blanks t) ++ u :=
  List.drop_append_of_le_length (blanks_le_length t)

theorem dropWhile_isBlank_append (ht : Ascii.newline ∈ t) :
    (t ++ u).dropWhile isBlank = t.dropWhile isBlank ++ u := by
  have hd := drop_blanks_append t u
  rw [← blanks_append_of_newline (u := u) ht, blanks, drop_takeWhile_length, ← blanks,
    blanks_append_of_newline ht, blanks, drop_takeWhile_length] at hd
  exact hd

theorem atLineEnd_append (ht : Ascii.newline ∈ t) : atLineEnd (t ++ u) = atLineEnd t := by
  cases t with
  | nil => simp at ht
  | cons b t => rfl

end Text

namespace CodePoint

theorem ofLead_append_of_newline {t u : Text} (a : UInt8) (ht : Ascii.newline ∈ t) :
    ofLead a (t ++ u) = ofLead a t := by
  have hsecond : secondOk a Ascii.newline = false := by
    unfold secondOk secondRange
    repeat' split
    all_goals rfl
  have htail : isTail Ascii.newline = false := rfl
  match t with
  | [] => simp at ht
  | [b] =>
      obtain rfl : b = Ascii.newline := (List.mem_singleton.1 ht).symm
      match u with
      | [] => rfl
      | [c] => simp [ofLead, hsecond]
      | c :: d :: u => simp [ofLead, hsecond]
  | [b, c] =>
      have hbc : Ascii.newline = b ∨ Ascii.newline = c := by simpa using ht
      cases u with
      | nil => rfl
      | cons d u => rcases hbc with rfl | rfl <;> simp [ofLead, hsecond, htail]
  | b :: c :: d :: t => rfl

end CodePoint

namespace Token

open Text (isBlank blanks atLineEnd)

/-! ## The matchers -/

section

variable {t u : Text} (c : Context) (ht : Ascii.newline ∈ t)
include ht

theorem continuation_append : continuation c (t ++ u) = continuation c t := by
  simp only [continuation]
  rw [Text.isPrefixOf_append_of_newline _ (by decide) ht,
    Text.isPrefixOf_append_of_newline _ (by decide) ht]

theorem ruleOf_append (m : UInt8) (k : Kind) (hm : m ≠ Ascii.newline) :
    ruleOf m k (t ++ u) = ruleOf m k t := by
  have hp : (Ascii.newline == m) = false := beq_false_of_ne hm.symm
  have hle : (t.takeWhile (· == m)).length ≤ t.length := (List.takeWhile_prefix _).length_le
  have hmem : Ascii.newline ∈ t.drop (t.takeWhile (· == m)).length := by
    rw [Text.drop_takeWhile_length]
    exact Text.newline_mem_dropWhile hp ht
  simp only [ruleOf]
  rw [Text.takeWhile_append_of_newline hp ht, List.drop_append_of_le_length hle,
    Text.blanks_append_of_newline hmem, ← List.drop_drop, ← List.drop_drop,
    List.drop_append_of_le_length hle, Text.drop_blanks_append,
    Text.atLineEnd_append (Text.newline_mem_drop_blanks hmem)]

theorem rule_append : rule c (t ++ u) = rule c t := by
  simp only [rule]
  rw [ruleOf_append ht _ _ (by decide), ruleOf_append ht _ _ (by decide)]

theorem comment_append : comment c (t ++ u) = comment c t := by
  simp only [comment]
  rw [Text.blanks_append_of_newline ht, Text.drop_blanks_append,
    Text.isPrefixOf_append_of_newline _ (by decide) (Text.newline_mem_drop_blanks ht),
    Text.takeWhile_append_of_newline (by decide) ht]

theorem operatorAt_append : operatorAt (t ++ u) = operatorAt t := by
  match t with
  | [] => simp at ht
  | [b] =>
      obtain rfl : b = Ascii.newline := (List.mem_singleton.1 ht).symm
      rfl
  | a :: b :: t => rfl

omit ht in
theorem operatorAt_spelled {k : Kind} {n : Nat} (h : operatorAt t = some (k, n)) :
    ∃ op rest, t = op ++ rest ∧ op.length = n ∧ Ascii.newline ∉ op := by
  unfold operatorAt at h
  repeat' split at h
  all_goals simp only [Option.some.injEq, Prod.mk.injEq, reduceCtorEq] at h
  all_goals obtain ⟨-, rfl⟩ := h
  all_goals simp only [beq_iff_eq] at *
  all_goals subst_vars
  · exact ⟨[_], _, rfl, rfl, by decide⟩
  all_goals exact ⟨[_, _], _, rfl, rfl, by decide⟩

theorem newline_mem_drop_operator {k : Kind} {n : Nat} (h : operatorAt t = some (k, n)) :
    Ascii.newline ∈ t.drop n := by
  obtain ⟨op, rest, rfl, rfl, hop⟩ := operatorAt_spelled h
  rw [List.drop_left' rfl]
  exact (List.mem_append.1 ht).resolve_left hop

theorem operator_append : operator c (t ++ u) = operator c t := by
  have hmem := Text.newline_mem_drop_blanks ht
  simp only [operator]
  rw [Text.blanks_append_of_newline ht, Text.drop_blanks_append, operatorAt_append hmem]
  split
  · rfl
  case h_2 k n hk =>
    have hn := newline_mem_drop_operator hmem hk
    have hle := (operatorAt_inside hk).2
    rw [← List.drop_drop, Text.drop_blanks_append, List.drop_append_of_le_length hle,
      Text.blanks_append_of_newline hn, List.drop_drop]

theorem newline_append : newline c (t ++ u) = newline c t := by
  cases t with
  | nil => simp at ht
  | cons b t => rfl

theorem bracket_append : bracket c (t ++ u) = bracket c t := by
  cases t with
  | nil => simp at ht
  | cons b t => rfl

theorem escape_append : escape c (t ++ u) = escape c t := by
  cases t with
  | nil => simp at ht
  | cons b t =>
      simp only [escape, List.cons_append]
      by_cases hb : b = Ascii.backslash
      · subst hb
        have hmem : Ascii.newline ∈ t := (List.mem_cons.1 ht).resolve_left (by decide)
        cases t with
        | nil => simp at hmem
        | cons a t =>
            rcases List.mem_cons.1 hmem with rfl | hmem
            · rfl
            · simp only [CodePoint.first?, List.cons_append,
                CodePoint.ofLead_append_of_newline a hmem]
      · simp [hb]

theorem white_append : white c (t ++ u) = white c t := by
  simp only [white]
  rw [Text.blanks_append_of_newline ht]

theorem number_append : number c (t ++ u) = number c t := by
  simp only [number]
  rw [Text.takeWhile_append_of_newline (by decide) ht]

theorem endsName_append : endsName (t ++ u) = endsName t := by
  have ho := operatorAt_append (u := u) ht
  cases t with
  | nil => simp at ht
  | cons b t =>
      rw [List.cons_append] at ho
      simp only [endsName, List.cons_append, ho]

theorem nameOver_append : nameOver (t ++ u) = nameOver t := by
  have hmem : Ascii.newline ∈ t.dropWhile isBlank := Text.newline_mem_dropWhile rfl ht
  simp only [nameOver]
  rw [Text.dropWhile_isBlank_append ht, Text.blanks_append_of_newline ht, endsName_append hmem,
    Text.isPrefixOf_append_of_newline _ (by decide) hmem]

theorem nameTail_append : nameTail (t ++ u) = nameTail t := by
  induction t with
  | nil => simp at ht
  | cons b t ih =>
      have ho := nameOver_append (u := u) ht
      rw [List.cons_append] at ho
      rw [List.cons_append, nameTail, nameTail, ho]
      by_cases hover : nameOver (b :: t) = true
      · rw [if_pos hover, if_pos hover]
      · rw [if_neg hover, if_neg hover]
        rcases List.mem_cons.1 ht with rfl | hmem
        · exact absurd rfl hover
        · rw [ih hmem]

theorem name_append {b : UInt8} : name c (b :: t ++ u) = name c (b :: t) := by
  simp only [name, List.cons_append]
  rw [nameTail_append ht]

/-- The next lexeme is decided by what comes before the first newline. -/
theorem lexeme_append : lexeme c (t ++ u) = lexeme c t := by
  cases t with
  | nil => simp at ht
  | cons b t =>
      by_cases hb : b = Ascii.newline
      · rw [hb, List.cons_append, lexeme_newline, lexeme_newline]
      · have hmem : Ascii.newline ∈ t := (List.mem_cons.1 ht).resolve_left (Ne.symm hb)
        simp only [lexeme, matchers, List.findSome?_cons, List.findSome?_nil,
          continuation_append c ht, rule_append c ht, comment_append c ht, operator_append c ht,
          newline_append c ht, bracket_append c ht, escape_append c ht, white_append c ht,
          number_append c ht, name_append c hmem]

end

/-! ## The text below a newline token -/

def shift (distance : Nat) (t : Token) : Token := { t with offset := t.offset + distance }

theorem scanFrom_shift (distance : Nat) (c : Context) (offset : Nat) (t : Text) :
    scanFrom c (offset + distance) t = (scanFrom c offset t).map (shift distance) := by
  induction c, offset, t using scan_induction with
  | nil c offset => simp [scanFrom_nil, shift]
  | step c offset k read rest hread hl hsp ih =>
      rw [scanFrom_append hl, scanFrom_append hl, List.map_append, Nat.add_right_comm, ih]
      cases k with
      | none => rfl
      | some k => rfl

theorem newline_mem_of_token {c : Context} {offset : Nat} {t : Text} {n : Token}
    (hn : n ∈ scanFrom c offset t) (hk : n.kind = .newline) : Ascii.newline ∈ t := by
  induction c, offset, t using scan_induction with
  | nil c offset =>
      rw [scanFrom_nil, List.mem_singleton] at hn
      rw [hn] at hk
      cases hk
  | step c offset k read rest hread hl hsp ih =>
      rw [scanFrom_append hl] at hn
      rcases List.mem_append.1 hn with hn | hn
      · apply List.mem_append_left
        cases k with
        | none => cases hn
        | some k =>
            obtain rfl := List.mem_singleton.1 hn
            obtain rfl : k = .newline := hk
            cases hsp with
            | rule hk => rcases hk with hk | hk <;> cases hk
            | newline => exact List.mem_singleton.2 rfl
            | inside hk => cases hk
      · exact List.mem_append_right _ (ih hn)

/-- A text that ends with a newline token is scanned as if nothing followed, and what follows as
if nothing came before. -/
theorem scanFrom_below_newline {c : Context} {offset : Nat} {t : Text} {n : Token}
    (hn : n ∈ scanFrom c offset t) (hk : n.kind = .newline)
    (hlast : n.offset + 1 = (offset + t.length : Nat)) :
    ∃ ts, scanFrom c offset t = ts ++ [n, ⟨.eof, [], (offset + t.length : Nat)⟩] ∧
      ∀ u, scanFrom c offset (t ++ u) =
        ts ++ n :: scanFrom ⟨true, false⟩ (offset + t.length) u := by
  induction c, offset, t using scan_induction with
  | nil c offset =>
      rw [scanFrom_nil, List.mem_singleton] at hn
      rw [hn] at hk
      cases hk
  | step c offset k read rest hread hl hsp ih =>
      have hl' : ∀ u, lexeme c (read ++ (rest ++ u)) = some ⟨k, read.length⟩ := by
        intro u
        rw [← List.append_assoc, lexeme_append c (newline_mem_of_token hn hk), hl]
      rw [scanFrom_append hl] at hn ⊢
      rw [List.length_append, ← Nat.add_assoc] at hlast ⊢
      rcases List.mem_append.1 hn with hn | hn
      · cases k with
        | none => cases hn
        | some k =>
            obtain rfl := List.mem_singleton.1 hn
            obtain rfl : k = .newline := hk
            have hpos := List.length_pos_iff.2 hread
            obtain rfl : rest = [] := List.length_eq_zero_iff.1 (by simp only at hlast; omega)
            cases hsp with
            | rule hk => rcases hk with hk | hk <;> cases hk
            | inside hk => cases hk
            | newline =>
                refine ⟨[], by rw [scanFrom_nil]; rfl, ?_⟩
                intro u
                rw [List.append_assoc, scanFrom_append (hl' u)]
                rfl
      · obtain ⟨ts, hts, hbelow⟩ := ih hn hlast
        refine ⟨_ ++ ts, by rw [hts, List.append_assoc], ?_⟩
        intro u
        rw [List.append_assoc, scanFrom_append (hl' u), hbelow u, List.append_assoc]

end Token

end PoolProse
