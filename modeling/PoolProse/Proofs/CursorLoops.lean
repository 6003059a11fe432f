import PoolProse.Proofs.CursorReading
import PoolProse.Proofs.Outlook
import PoolProse.Proofs.Scanner

/-!
# Where loops over a text end

The loops of a scanner look at code points, while what they should read is said in bytes. `Reads`
says that a cursor has read certain bytes, and each loop is shown to end, with the bytes read that
the unread text says. A NUL and the end of the text look the same, so it is here that they are told
apart.
-/
namespace PoolProse

/-! ## Code points and the bytes they start with -/

namespace CodePoint

variable {a b : UInt8}

theorem ofLead_ascii (ha : a < 0x80) (rest : Text) : ofLead a rest = ⟨a.toNat, [a]⟩ := by
  simp [ofLead, ha]

theorem code_ofLead_high (ha : ¬ a < 0x80) (rest : Text) : 0x80 ≤ (ofLead a rest).code := by
  rcases ofLead_cases a rest with ⟨h, -⟩ | h | h
  · exact absurd h ha
  · rw [h]
    exact Nat.le_of_ble_eq_true rfl
  · exact h.code

theorem high_of_mem_bytes (ha : ¬ a < 0x80) {rest : Text} (hb : b ∈ (ofLead a rest).bytes) :
    ¬ b < 0x80 := by
  rcases ofLead_cases a rest with ⟨h, -⟩ | h | h
  · exact absurd h ha
  · rw [h] at hb
    obtain rfl := List.mem_singleton.1 hb
    exact ha
  · exact UInt8.not_lt.2 (h.high b hb)

theorem exists_bytes_ofLead (a : UInt8) (rest : Text) :
    ∃ more, (ofLead a rest).bytes = a :: more ∧ ∀ b ∈ more, ¬ b < 0x80 := by
  have hcat := bytes_append_drop a rest
  cases h : (ofLead a rest).bytes with
  | nil => exact absurd h (bytes_ofLead_ne_nil a rest)
  | cons a' more =>
      rw [h] at hcat
      obtain rfl : a' = a := (List.cons.inj hcat).1
      refine ⟨more, rfl, fun b hb => ?_⟩
      by_cases ha : a' < 0x80
      · rw [ofLead_ascii ha] at h
        rw [← (List.cons.inj h).2] at hb
        cases hb
      · exact high_of_mem_bytes ha (h ▸ List.mem_cons_of_mem a' hb)

theorem code_beq_toNat (hb : b < 0x80) (rest : Text) :
    ((ofLead a rest).code == b.toNat) = (a == b) := by
  by_cases ha : a < 0x80
  · rw [ofLead_ascii ha, Bool.eq_iff_iff, beq_iff_eq, beq_iff_eq, UInt8.toNat_inj]
  · have hcode := code_ofLead_high ha rest
    have hlt := UInt8.lt_iff_toNat_lt.1 hb
    have hne : a ≠ b := fun h => ha (h ▸ hb)
    rw [beq_eq_false_iff_ne.2 hne, beq_eq_false_iff_ne]
    exact Nat.ne_of_gt (Nat.lt_of_lt_of_le hlt hcode)

end CodePoint

namespace Cursor

open CodePoint (ofLead)

theorem ascii_of_isBlank {b : UInt8} (h : Text.isBlank b = true) : b < 0x80 := by
  rcases Text.isBlank_iff.1 h with rfl | rfl | rfl
  all_goals decide

theorem ascii_of_isDigit {b : UInt8} (h : Text.isDigit b = true) : b < 0x80 :=
  UInt8.not_le.1 (of_decide_eq_false (Token.isHigh_digit h))

theorem isBlank_code (a : UInt8) (rest : Text) :
    isBlank (ofLead a rest).code = Text.isBlank a := by
  simp (disch := decide) only [isBlank, CodePoint.code_beq_toNat, Text.isBlank]

theorem isDigit_code (a : UInt8) (rest : Text) :
    isDigit (ofLead a rest).code = Text.isDigit a := by
  by_cases ha : a < 0x80
  · rw [CodePoint.ofLead_ascii ha]
    rfl
  · have hcode := CodePoint.code_ofLead_high ha rest
    have hnine : Ascii.nine.toNat < 0x80 := by decide
    have hlate : ¬ (ofLead a rest).code ≤ Ascii.nine.toNat := by omega
    have hhigh : ¬ a ≤ Ascii.nine := fun h => ha (UInt8.lt_of_le_of_lt h (by decide))
    simp only [isDigit, Text.isDigit, decide_eq_false hlate, decide_eq_false hhigh, Bool.and_false]

/-! ## Looks ahead, by the unread text -/

theorem codeAhead_nil (n : Nat) : codeAhead n [] = 0 := by
  cases n <;> rfl

theorem codeAhead_nil_beq {b : UInt8} (hb : b ≠ Ascii.nul) (n : Nat) :
    (codeAhead n [] == b.toNat) = false := by
  rw [codeAhead_nil, beq_eq_false_iff_ne]
  exact fun h => hb (UInt8.toNat_inj.1 h.symm)

theorem codeAhead_beq {b : UInt8} (hb : b < 0x80) (a : UInt8) (t : Text) :
    (codeAhead 0 (a :: t) == b.toNat) = (a == b) :=
  CodePoint.code_beq_toNat hb t

theorem codeAhead_succ {a : UInt8} (ha : a < 0x80) (n : Nat) (t : Text) :
    codeAhead (n + 1) (a :: t) = codeAhead n t := by
  simp [codeAhead, CodePoint.first?, CodePoint.ofLead_ascii ha, CodePoint.size]

variable {c d e : Cursor} {a : UInt8} {t : Text}

theorem not_atEnd (h : c.rest = a :: t) : ¬ c.atEnd = true := by
  rw [atEnd_iff, h]
  exact List.cons_ne_nil a t

theorem sees_nil (h : c.rest = []) {b : UInt8} (hb : b ≠ Ascii.nul) (n : Nat) :
    c.sees n b = false := by
  rw [sees, peekAt, h, codeAhead_nil_beq hb]

theorem sees_cons (h : c.rest = a :: t) {b : UInt8} (hb : b < 0x80) : c.sees 0 b = (a == b) := by
  rw [sees, peekAt, h, codeAhead_beq hb]

theorem sees_succ (h : c.rest = a :: t) (ha : a < 0x80) (n : Nat) (b : UInt8) :
    c.sees (n + 1) b = (codeAhead n t == b.toNat) := by
  rw [sees, peekAt, h, codeAhead_succ ha]

theorem operator?_eq (c : Cursor) : c.operator? = Token.operatorAt c.rest := by
  cases h : c.rest with
  | nil => simp (disch := decide) [operator?, sees_nil h, Token.operatorAt]
  | cons a t =>
      simp (disch := decide) only [operator?, sees_cons h, Token.operatorAt]
      -- a second byte counts only after a colon or an angle
      by_cases hcolon : a = Ascii.colon
      · subst hcolon
        cases t with
        | nil => simp (disch := decide) [sees_succ h, codeAhead_nil_beq]
        | cons b t => simp (disch := decide) only [sees_succ h, codeAhead_beq]
      by_cases hless : a = Ascii.less
      · subst hless
        cases t with
        | nil => simp (disch := decide) [sees_succ h, codeAhead_nil_beq]
        | cons b t => simp (disch := decide) only [sees_succ h, codeAhead_beq]
      simp [hcolon, hless]

theorem bracket?_cons (h : c.rest = a :: t) : c.bracket? = Token.bracketKind a := by
  simp (disch := decide) only [bracket?, sees_cons h, Token.bracketKind]

theorem endsName_eq (c : Cursor) : c.endsName = Token.endsName c.rest := by
  rw [endsName, operator?_eq]
  cases h : c.rest with
  | nil => simp [sees, peekAt, h, codeAhead_nil, Token.endsName]
  | cons a t =>
      simp (disch := decide) only [sees_cons h, bracket?_cons h, Token.endsName]

theorem atLineEnd_eq (c : Cursor) : c.atLineEnd = Text.atLineEnd c.rest := by
  rw [atLineEnd]
  cases h : c.rest with
  | nil => simp [sees, peekAt, h, codeAhead_nil, Text.atLineEnd, c.atEnd_iff.2 h]
  | cons a t =>
      simp (disch := decide) only [sees_cons h, not_atEnd h, Text.atLineEnd, Bool.and_false,
        Bool.false_or]

/-! ## Reading a stretch of text -/

/-- From `c` to `d` the bytes `read` are read, as whole code points. -/
structure Reads (c : Cursor) (read : Text) (d : Cursor) : Prop where
  source_eq : d.source = c.source
  rest_eq : c.rest = read ++ d.rest
  pos_eq : d.pos = c.pos + read.length
  isBlank_last : isBlank d.last = (read.getLast?.map Text.isBlank).getD (isBlank c.last)

namespace Reads

variable {read read' : Text}

theorem refl (c : Cursor) : c.Reads [] c := ⟨rfl, rfl, rfl, rfl⟩

theorem trans (h : c.Reads read d) (h' : d.Reads read' e) : c.Reads (read ++ read') e where
  source_eq := h'.source_eq.trans h.source_eq
  rest_eq := by rw [h.rest_eq, h'.rest_eq, List.append_assoc]
  pos_eq := by rw [h'.pos_eq, h.pos_eq, List.length_append, Nat.add_assoc]
  isBlank_last := by
    rw [h'.isBlank_last, h.isBlank_last, List.getLast?_append]
    cases read'.getLast? <;> rfl

theorem rest_drop (h : c.Reads read d) : d.rest = c.rest.drop read.length := by
  rw [h.rest_eq, List.drop_left' rfl]

theorem next (h : c.rest = a :: t) : c.Reads (ofLead a t).bytes c.next.2 := by
  have hnext : c.next.2 =
      { c with pos := c.pos + (ofLead a t).size, last := (ofLead a t).code } := by
    rw [Cursor.next, h]
    rfl
  rw [hnext]
  refine ⟨rfl, ?_, rfl, ?_⟩
  · change c.rest = _ ++ c.source.drop (c.pos + _)
    rw [← List.drop_drop, ← rest, h, CodePoint.bytes_append_drop]
  · rw [isBlank_code]
    by_cases ha : a < 0x80
    · rw [CodePoint.ofLead_ascii ha]
      rfl
    -- a code point of high bytes neither starts nor ends with a blank
    · have hblank : ∀ b, ¬ b < 0x80 → Text.isBlank b = false :=
        fun b hb => Bool.eq_false_iff.2 fun h => hb (ascii_of_isBlank h)
      have hne := CodePoint.bytes_ofLead_ne_nil a t
      have hlast := CodePoint.high_of_mem_bytes ha (List.getLast_mem hne)
      rw [List.getLast?_eq_some_getLast hne, Option.map_some, Option.getD_some, hblank a ha,
        hblank _ hlast]

theorem skip (read : Text) (h : c.rest = read ++ t) (hread : read.all (· < 0x80) = true) :
    c.Reads read (c.skip read.length) := by
  induction read generalizing c with
  | nil => exact refl c
  | cons a read ih =>
      rw [List.all_cons, Bool.and_eq_true, decide_eq_true_iff] at hread
      obtain ⟨ha, hread⟩ := hread
      have hnext := next h
      rw [CodePoint.ofLead_ascii ha] at hnext
      have hrest := hnext.rest_drop
      rw [h, List.cons_append, List.length_singleton, List.drop_one, List.tail_cons] at hrest
      exact hnext.trans (ih hrest hread)

theorem since? (h : c.Reads read d) : d.since? c.pos = some read := by
  have hslice : (d.source.take d.pos).drop c.pos = (c.rest.take read.length) := by
    rw [h.source_eq, h.pos_eq, List.drop_take, Nat.add_sub_cancel_left]
    rfl
  rw [since?_natCast, if_pos (h.pos_eq ▸ Nat.le_add_right _ _), hslice, h.rest_eq,
    List.take_left' rfl]

theorem reset (h : c.Reads read d) : d.reset c.mark = c := by
  rw [Cursor.reset, h.source_eq]
  rfl

theorem length_rest (h : c.Reads read d) : c.rest.length = read.length + d.rest.length := by
  rw [h.rest_eq, List.length_append]

theorem onward {α : Type} (h : c.Reads read d) (hread : read ≠ []) (f : Option α) :
    c.onward d (fun _ => f) = f := by
  have hlength := h.length_rest
  have hpos := List.length_pos_of_ne_nil hread
  rw [Cursor.onward, dif_pos (by omega)]

end Reads

@[elab_as_elim]
theorem reading_induction {P : Cursor → Prop}
    (step : ∀ c, (∀ {read d}, c.Reads read d → read ≠ [] → P d) → P c) (c : Cursor) : P c := by
  induction hn : c.rest.length using Nat.strongRecOn generalizing c with
  | ind n ih =>
      refine step c fun {read d} hreads hne => ?_
      have hlength := hreads.length_rest
      have hpos := List.length_pos_of_ne_nil hne
      exact ih d.rest.length (by omega) d rfl

/-! ## Loops end, and where -/

theorem readWhile_of_false {p : Cursor → Bool} (h : p c = false) : c.readWhile p = some (0, c) := by
  rw [readWhile, if_neg (by rw [h]; decide)]

/-- A loop that looks at the next byte reads all bytes it accepts. High bytes are read together, so
it accepts all of them or none. -/
theorem readWhile_reads {p : Cursor → Bool} {q : UInt8 → Bool}
    (hp : ∀ c : Cursor, p c = c.rest.head?.any q)
    (hq : ∀ a b, ¬ a < 0x80 → ¬ b < 0x80 → q a = true → q b = true) (c : Cursor) :
    ∃ n d, c.readWhile p = some (n, d) ∧ c.Reads (c.rest.takeWhile q) d ∧
      ((∀ {b}, q b = true → b < 0x80) → n = (c.rest.takeWhile q).length) := by
  induction c using reading_induction with
  | step c ih =>
      cases hrest : c.rest with
      | nil => exact ⟨0, c, readWhile_of_false (by simp [hp, hrest]), .refl c, fun _ => rfl⟩
      | cons a t =>
          cases ha : q a with
          | false =>
              rw [List.takeWhile_cons_of_neg (by simp [ha])]
              exact ⟨0, c, readWhile_of_false (by simp [hp, hrest, ha]), .refl c, fun _ => rfl⟩
          | true =>
              have hnext := Reads.next hrest
              have hne := CodePoint.bytes_ofLead_ne_nil a t
              obtain ⟨n, d, hloop, hreads, hcount⟩ := ih hnext hne
              have hall : ∀ b ∈ (ofLead a t).bytes, q b = true := by
                intro b hb
                by_cases hlow : a < 0x80
                · rw [CodePoint.ofLead_ascii hlow] at hb
                  exact List.mem_singleton.1 hb ▸ ha
                · exact hq a b hlow (CodePoint.high_of_mem_bytes hlow hb) ha
              have htake : (a :: t).takeWhile q =
                  (ofLead a t).bytes ++ c.next.2.rest.takeWhile q := by
                rw [← hrest, hnext.rest_eq, List.takeWhile_append_of_pos hall]
              refine ⟨n + 1, d, ?_, ?_, ?_⟩
              · rw [readWhile, if_pos (by simp [hp, hrest, ha]), hnext.onward hne, hloop]
                rfl
              · rw [htake]
                exact hnext.trans hreads
              · intro hascii
                rw [htake, CodePoint.ofLead_ascii (hascii ha), List.length_append, hcount hascii,
                  List.length_singleton, Nat.add_comm]

theorem readWhile_ascii {p : Cursor → Bool} {q : UInt8 → Bool}
    (hp : ∀ c : Cursor, p c = c.rest.head?.any q) (hq : ∀ {b}, q b = true → b < 0x80)
    (c : Cursor) :
    ∃ d, c.readWhile p = some ((c.rest.takeWhile q).length, d) ∧
      c.Reads (c.rest.takeWhile q) d := by
  obtain ⟨n, d, hloop, hreads, hcount⟩ :=
    readWhile_reads hp (fun _ _ ha _ haccepted => absurd (hq haccepted) ha) c
  obtain rfl := hcount hq
  exact ⟨d, hloop, hreads⟩

theorem isBlank_peek (c : Cursor) : isBlank c.peek = c.rest.head?.any Text.isBlank := by
  rw [peek, peekAt]
  cases c.rest with
  | nil => rfl
  | cons a t => exact isBlank_code a t

theorem isDigit_peek (c : Cursor) : isDigit c.peek = c.rest.head?.any Text.isDigit := by
  rw [peek, peekAt]
  cases c.rest with
  | nil => rfl
  | cons a t => exact isDigit_code a t

theorem sees_eq {b : UInt8} (hb : b < 0x80) (hnul : b ≠ Ascii.nul) (c : Cursor) :
    c.sees 0 b = c.rest.head?.any (· == b) := by
  cases h : c.rest with
  | nil => exact sees_nil h hnul 0
  | cons a t => exact sees_cons h hb

theorem skipBlanks_reads (c : Cursor) :
    ∃ d, c.skipBlanks = some (Text.blanks c.rest, d) ∧
      c.Reads (c.rest.takeWhile Text.isBlank) d :=
  readWhile_ascii isBlank_peek ascii_of_isBlank c

/-- What is left of a line is read up to the newline or the end of the text, whichever NULs it
holds. -/
theorem readWhile_line (c : Cursor) :
    ∃ n d, (c.readWhile fun c => !c.atLineEnd) = some (n, d) ∧
      c.Reads (c.rest.takeWhile (· != Ascii.newline)) d := by
  have hinside : ∀ c : Cursor, (!c.atLineEnd) = c.rest.head?.any (· != Ascii.newline) := by
    intro c
    rw [atLineEnd_eq]
    cases c.rest with
    | nil => rfl
    | cons a t => rfl
  have hhigh : ∀ a b : UInt8, ¬ a < 0x80 → ¬ b < 0x80 → (a != Ascii.newline) = true →
      (b != Ascii.newline) = true := by
    intro _ b _ hb _
    rw [bne_iff_ne]
    rintro rfl
    exact hb (by decide)
  obtain ⟨n, d, hloop, hreads, -⟩ := readWhile_reads hinside hhigh c
  exact ⟨n, d, hloop, hreads⟩

end Cursor

namespace Token

open Text (isBlank blanks)

theorem operatorAt_ascii {t : Text} {k : Kind} {n : Nat} (h : operatorAt t = some (k, n)) :
    ∃ symbol u, t = symbol ++ u ∧ n = symbol.length ∧ symbol.all (· < 0x80) = true := by
  rcases operatorAt_cases h with ⟨-, rfl, u, rfl⟩ | ⟨op, u, -, rfl, rfl⟩
  · exact ⟨[Ascii.bar], u, rfl, rfl, rfl⟩
  · exact ⟨op.symbol, u, rfl, rfl, by cases op <;> rfl⟩

theorem nameOver_high {b : UInt8} (hb : ¬ b < 0x80) (t : Text) : nameOver (b :: t) = false := by
  rw [← Bool.not_eq_true]
  intro h
  have hhigh : CodePoint.isHigh b = true := decide_eq_true (UInt8.not_lt.1 hb)
  have hnil := takeWhile_isHigh_of_nameOver h
  rw [List.takeWhile_cons_of_pos hhigh] at hnil
  cases hnil

/-- Whether a name is over is the same at each of the blanks before its next part. -/
theorem nameOver_blanks {u t : Text} (hu : ∀ b ∈ u, isBlank b = true) (hne : u ≠ [])
    (ht : t.dropWhile isBlank = t) :
    nameOver (u ++ t) = (endsName t || commentMark.isPrefixOf t) := by
  have hpos : 0 < blanks (u ++ t) := by
    rw [blanks, List.takeWhile_append_of_pos hu]
    exact List.length_pos_of_ne_nil (List.append_ne_nil_of_left_ne_nil hne _)
  rw [nameOver, List.dropWhile_append_of_pos hu, ht, decide_eq_true hpos, Bool.true_and]

theorem nameOver_of_not_blank {a : UInt8} (ha : isBlank a = false) (t : Text) :
    nameOver (a :: t) = endsName (a :: t) := by
  have hnone : blanks (a :: t) = 0 := Text.blanks_eq_zero_iff.2 (by simpa using ha)
  rw [nameOver, List.dropWhile_cons_of_neg (by simp [ha]), hnone, decide_eq_false (Nat.lt_irrefl 0),
    Bool.false_and, Bool.or_false]

theorem nameTail_of_over {t : Text} (h : nameOver t = true) : nameTail t = 0 := by
  cases t with
  | nil => rfl
  | cons b t => rw [nameTail, if_pos h]

theorem nameTail_add {u v : Text}
    (h : ∀ x b y, u = x ++ b :: y → nameOver (b :: (y ++ v)) = false) :
    nameTail (u ++ v) = u.length + nameTail v := by
  induction u with
  | nil => exact (Nat.zero_add _).symm
  | cons a u ih =>
      rw [List.cons_append, nameTail, h [] a u rfl, if_neg Bool.false_ne_true,
        ih fun x b y hcat => h (a :: x) b y (by rw [hcat, List.cons_append]), List.length_cons]
      omega

end Token

namespace Cursor

open CodePoint (ofLead)
open Token (nameOver nameTail commentMark)

variable {c d : Cursor} {a : UInt8} {t : Text}

/-- The loop over a name ends where the name does. -/
def ReadsName (c : Cursor) : Prop :=
  ∃ d, c.nameRest = some d ∧ c.Reads (c.rest.take (nameTail c.rest)) d

theorem readsName_of_over (h : nameOver c.rest = true) (hloop : c.nameRest = some c) :
    c.ReadsName := by
  refine ⟨c, hloop, ?_⟩
  rw [Token.nameTail_of_over h, List.take_zero]
  exact .refl c

theorem readsName_of_onward {read : Text} (h : c.Reads read d) (hread : read ≠ [])
    (hover : ∀ x b y, read = x ++ b :: y → nameOver (b :: (y ++ d.rest)) = false)
    (hloop : c.nameRest = c.onward d fun _ => d.nameRest) (hrest : d.ReadsName) :
    c.ReadsName := by
  obtain ⟨e, he, hreads⟩ := hrest
  refine ⟨e, ?_, ?_⟩
  · rw [hloop, h.onward hread, he]
  · rw [h.rest_eq, Token.nameTail_add hover, List.take_length_add_append]
    exact h.trans hreads

/-- At blanks the name goes on after all of them or is over before the first. -/
theorem readsName_at_blank (h : c.rest = a :: t) (ha : Text.isBlank a = true)
    (hrest : ∀ {read d}, c.Reads read d → read ≠ [] → d.ReadsName) : c.ReadsName := by
  obtain ⟨d, hskip, hreads⟩ := c.skipBlanks_reads
  have hne : c.rest.takeWhile Text.isBlank ≠ [] := by
    rw [h, List.takeWhile_cons_of_pos ha]
    exact List.cons_ne_nil _ _
  have hblank : ∀ b ∈ c.rest.takeWhile Text.isBlank, Text.isBlank b = true :=
    fun b hb => List.mem_takeWhile_imp hb
  have hdrop : d.rest.dropWhile Text.isBlank = d.rest := by
    rw [hreads.rest_drop, Text.drop_takeWhile_length, List.dropWhile_idempotent]
  have hover : ∀ u, (∀ b ∈ u, Text.isBlank b = true) → u ≠ [] →
      nameOver (u ++ d.rest) = (d.endsName || d.startsWith commentMark) := by
    intro u hu hne
    rw [endsName_eq, startsWith, Token.nameOver_blanks hu hne hdrop]
  have hloop : c.nameRest =
      if d.endsName || d.startsWith commentMark then some (d.reset c.mark)
      else c.onward d fun _ => d.nameRest := by
    rw [nameRest, if_neg (not_atEnd h), if_pos (by rw [isBlank_peek, h]; exact ha), hskip]
    rfl
  cases hstop : d.endsName || d.startsWith commentMark with
  | true =>
      rw [hstop, if_pos rfl, hreads.reset] at hloop
      refine readsName_of_over ?_ hloop
      rw [hreads.rest_eq, hover _ hblank hne, hstop]
  | false =>
      rw [hstop, if_neg Bool.false_ne_true] at hloop
      refine readsName_of_onward hreads hne (fun x b y hcat => ?_) hloop (hrest hreads hne)
      rw [hcat] at hblank
      rw [← List.cons_append, hover _ _ (List.cons_ne_nil b y), hstop]
      exact fun b hb => hblank b (List.mem_append_right x hb)

/-- Elsewhere it goes on by one code point, no part of which but the first could end it. -/
theorem readsName_inside (h : c.rest = a :: t) (ha : Text.isBlank a = false)
    (hrest : ∀ {read d}, c.Reads read d → read ≠ [] → d.ReadsName) : c.ReadsName := by
  have hover : c.endsName = nameOver c.rest := by
    rw [endsName_eq, h, Token.nameOver_of_not_blank ha]
  have hloop : c.nameRest =
      if nameOver c.rest then some c else c.onward c.next.2 fun _ => c.next.2.nameRest := by
    rw [nameRest, if_neg (not_atEnd h), if_neg (by rw [isBlank_peek, h]; simp [ha]), hover]
  cases hstop : nameOver c.rest with
  | true => exact readsName_of_over hstop (by rw [hloop, hstop, if_pos rfl])
  | false =>
      rw [hstop, if_neg Bool.false_ne_true] at hloop
      have hnext := Reads.next h
      have hne := CodePoint.bytes_ofLead_ne_nil a t
      refine readsName_of_onward hnext hne (fun x b y hcat => ?_) hloop (hrest hnext hne)
      obtain ⟨more, hbytes, hhigh⟩ := CodePoint.exists_bytes_ofLead a t
      cases x with
      | nil =>
          rw [hnext.rest_eq, hcat] at hstop
          exact hstop
      | cons a' x =>
          have hmore : more = x ++ b :: y := (List.cons.inj (hbytes.symm.trans hcat)).2
          exact Token.nameOver_high (hhigh b (by simp [hmore])) _

theorem nameRest_reads (c : Cursor) : c.ReadsName := by
  induction c using reading_induction with
  | step c ih =>
      cases hc : c.rest with
      | nil =>
          refine ⟨c, ?_, ?_⟩
          · rw [nameRest, if_pos (c.atEnd_iff.2 hc)]
          · rw [hc]
            exact .refl c
      | cons a t =>
          cases ha : Text.isBlank a with
          | true => exact readsName_at_blank hc ha ih
          | false => exact readsName_inside hc ha ih

end Cursor

end PoolProse
