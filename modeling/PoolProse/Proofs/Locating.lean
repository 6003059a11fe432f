import Mathlib.Data.List.DropRight
import PoolProse.Position
import PoolProse.Proofs.TokenForms

/-!
# Places in a clean text

In a text that is UTF-8, without NUL and without the replacement character, every offset has a
position. Its line is one more than the number of newlines before it, and its column one more than
the number of code points between the last of them and the offset.
-/
namespace PoolProse

/-! ## Code points of several bytes -/

namespace CodePoint

theorem high_of_secondOk {a b : UInt8} (h : secondOk a b = true) : 0x80 ≤ b := by
  simp only [secondOk, Bool.and_eq_true, decide_eq_true_eq] at h
  refine UInt8.le_trans ?_ h.1
  unfold secondRange
  repeat' split
  all_goals decide

theorem high_of_isTail {b : UInt8} (h : isTail b = true) : 0x80 ≤ b := by
  simp only [isTail, Bool.and_eq_true, decide_eq_true_eq] at h
  exact h.1

/-- The code points of several bytes, by their number. -/
inductive Wide : CodePoint → Prop where
  | two {a b : UInt8} (hlow : ¬ a < 0xC2) (ha : a < 0xE0) (hb : secondOk a b = true) :
      Wide ⟨a.toNat % 32 * 64 + tailBits b, [a, b]⟩
  | three {a b c : UInt8} (hlow : ¬ a < 0xE0) (ha : a < 0xF0) (hb : secondOk a b = true)
      (hc : isTail c = true) :
      Wide ⟨(a.toNat % 16 * 64 + tailBits b) * 64 + tailBits c, [a, b, c]⟩
  | four {a b c d : UInt8} (hlow : ¬ a < 0xF0) (ha : a < 0xF5) (hb : secondOk a b = true)
      (hc : isTail c = true) (hd : isTail d = true) :
      Wide ⟨((a.toNat % 8 * 64 + tailBits b) * 64 + tailBits c) * 64 + tailBits d, [a, b, c, d]⟩

theorem ofLead_cases (a : UInt8) (rest : Text) :
    (a < 0x80 ∧ ofLead a rest = ⟨a.toNat, [a]⟩) ∨ ofLead a rest = stray a ∨
      (ofLead a rest).Wide := by
  unfold ofLead
  split
  case isTrue ha => exact Or.inl ⟨ha, rfl⟩
  case isFalse =>
    right
    split
    case isTrue => exact Or.inl rfl
    case isFalse htwo =>
      split
      case isTrue ha =>
        split
        case h_1 =>
          split
          case isTrue hb => exact Or.inr (.two htwo ha hb)
          case isFalse => exact Or.inl rfl
        case h_2 => exact Or.inl rfl
      case isFalse hthree =>
        split
        case isTrue ha =>
          split
          case h_1 =>
            split
            case isTrue h =>
              obtain ⟨hb, hc⟩ := Bool.and_eq_true_iff.1 h
              exact Or.inr (.three hthree ha hb hc)
            case isFalse => exact Or.inl rfl
          case h_2 => exact Or.inl rfl
        case isFalse hfour =>
          split
          case isTrue ha =>
            split
            case h_1 =>
              split
              case isTrue h =>
                obtain ⟨h, hd⟩ := Bool.and_eq_true_iff.1 h
                obtain ⟨hb, hc⟩ := Bool.and_eq_true_iff.1 h
                exact Or.inr (.four hfour ha hb hc hd)
              case isFalse => exact Or.inl rfl
            case h_2 => exact Or.inl rfl
          case isFalse => exact Or.inl rfl

namespace Wide

variable {r : CodePoint}

theorem not_lt_of_not_lt {a m n : UInt8} (h : ¬ a < n) (hmn : m ≤ n) : ¬ a < m :=
  fun ha => h (UInt8.lt_of_lt_of_le ha hmn)

theorem high (h : r.Wide) : ∀ b ∈ r.bytes, 0x80 ≤ b := by
  cases h with
  | two hlow _ hb =>
      have hlead := UInt8.not_lt.1 (not_lt_of_not_lt hlow (m := 0x80) (by decide))
      simp [hlead, high_of_secondOk hb]
  | three hlow _ hb hc =>
      have hlead := UInt8.not_lt.1 (not_lt_of_not_lt hlow (m := 0x80) (by decide))
      simp [hlead, high_of_secondOk hb, high_of_isTail hc]
  | four hlow _ hb hc hd =>
      have hlead := UInt8.not_lt.1 (not_lt_of_not_lt hlow (m := 0x80) (by decide))
      simp [hlead, high_of_secondOk hb, high_of_isTail hc, high_of_isTail hd]

theorem codePoints (h : r.Wide) (rest : Text) :
    Text.codePoints (r.bytes ++ rest) = r :: rest.codePoints := by
  cases h with
  | @two a b hlow ha hb =>
      have hlead : ofLead a (b :: rest) = ⟨a.toNat % 32 * 64 + tailBits b, [a, b]⟩ := by
        simp [ofLead, not_lt_of_not_lt hlow (m := 0x80) (by decide), hlow, ha, hb]
      simp [Text.codePoints, Text.codePointsFrom, hlead, size]
  | @three a b c hlow ha hb hc =>
      have hlead : ofLead a (b :: c :: rest) =
          ⟨(a.toNat % 16 * 64 + tailBits b) * 64 + tailBits c, [a, b, c]⟩ := by
        simp [ofLead, not_lt_of_not_lt hlow (m := 0x80) (by decide),
          not_lt_of_not_lt hlow (m := 0xC2) (by decide), hlow, ha, hb, hc]
      simp [Text.codePoints, Text.codePointsFrom, hlead, size]
  | @four a b c d hlow ha hb hc hd =>
      have hlead : ofLead a (b :: c :: d :: rest) =
          ⟨((a.toNat % 8 * 64 + tailBits b) * 64 + tailBits c) * 64 + tailBits d,
            [a, b, c, d]⟩ := by
        simp [ofLead, not_lt_of_not_lt hlow (m := 0x80) (by decide),
          not_lt_of_not_lt hlow (m := 0xC2) (by decide),
          not_lt_of_not_lt hlow (m := 0xE0) (by decide), hlow, ha, hb, hc, hd]
      simp [Text.codePoints, Text.codePointsFrom, hlead, size]

theorem bytes_ne_nil (h : r.Wide) : r.bytes ≠ [] := by
  cases h <;> simp

theorem code (h : r.Wide) : 0x80 ≤ r.code := by
  cases h with
  | @two a b hlow ha _ =>
      simp only [UInt8.lt_iff_toNat_lt, UInt8.reduceToNat] at hlow ha ⊢
      omega
  | @three a b c hlow ha hb _ =>
      by_cases hlead : a = 0xE0
      · subst hlead
        have hsecond : 0xA0 ≤ b.toNat ∧ b.toNat ≤ 0xBF := by
          simpa [secondOk, secondRange, UInt8.le_iff_toNat_le] using hb
        simp only [tailBits, UInt8.reduceToNat]
        omega
      · simp only [UInt8.lt_iff_toNat_lt, UInt8.reduceToNat, ← UInt8.toNat_inj] at hlow ha hlead ⊢
        omega
  | @four a b c d hlow ha hb _ _ =>
      by_cases hlead : a = 0xF0
      · subst hlead
        have hsecond : 0x90 ≤ b.toNat ∧ b.toNat ≤ 0xBF := by
          simpa [secondOk, secondRange, UInt8.le_iff_toNat_le] using hb
        simp only [tailBits, UInt8.reduceToNat]
        omega
      · simp only [UInt8.lt_iff_toNat_lt, UInt8.reduceToNat, ← UInt8.toNat_inj] at hlow ha hlead ⊢
        omega

end Wide

end CodePoint

/-! ## Clean texts -/

namespace Text

/-- The text is UTF-8, and has neither NUL nor the replacement character in it. -/
structure Clean (t : Text) : Prop where
  utf8 : t.isUtf8 = true
  nul : ∀ r ∈ t.codePoints, r.code ≠ 0
  replacement : ∀ r ∈ t.codePoints, r.code ≠ CodePoint.replacement

/-- The text is spelled by code points that a position can be told from. -/
inductive Spelt : Text → Prop where
  | nil : Spelt []
  | ascii {a : UInt8} {t : Text} (ha : a < 0x80) (hnul : a ≠ 0) (h : Spelt t) : Spelt (a :: t)
  | wide {r : CodePoint} {t : Text} (hr : r.Wide) (hvalid : r.code ≠ CodePoint.replacement)
      (h : Spelt t) : Spelt (r.bytes ++ t)

theorem codePoints_ascii {a : UInt8} (ha : a < 0x80) (t : Text) :
    codePoints (a :: t) = ⟨a.toNat, [a]⟩ :: codePoints t := by
  have hlead : CodePoint.ofLead a t = ⟨a.toNat, [a]⟩ := by
    simp only [CodePoint.ofLead, if_pos ha]
  rw [codePoints, codePointsFrom, hlead]
  rfl

theorem Clean.spelt {t : Text} (h : t.Clean) : t.Spelt := by
  obtain ⟨-, hnul, hreplacement⟩ := h
  -- on the length: a code point is read from bytes at the start of the text
  induction hn : t.length using Nat.strongRecOn generalizing t with
  | ind n ih =>
      cases t with
      | nil => exact .nil
      | cons a t =>
          have hmem : CodePoint.ofLead a t ∈ codePoints (a :: t) := List.mem_cons_self
          rcases CodePoint.ofLead_cases a t with ⟨ha, hlead⟩ | hstray | hwide
          · rw [codePoints_ascii ha] at hnul hreplacement
            obtain ⟨hzero, hnul⟩ := List.forall_mem_cons.1 hnul
            obtain ⟨-, hreplacement⟩ := List.forall_mem_cons.1 hreplacement
            refine .ascii ha ?_ (ih _ (by rw [← hn]; simp) hnul hreplacement rfl)
            rintro rfl
            exact hzero rfl
          · exact absurd (by rw [hstray]; rfl) (hreplacement _ hmem)
          · have hvalid := hreplacement _ hmem
            obtain ⟨rest, hrest⟩ := CodePoint.ofLead_prefix a t
            generalize CodePoint.ofLead a t = r at hwide hvalid hrest
            rw [← hrest, hwide.codePoints] at hnul hreplacement
            rw [← hrest]
            refine .wide hwide hvalid (ih _ ?_ (List.forall_mem_cons.1 hnul).2
              (List.forall_mem_cons.1 hreplacement).2 rfl)
            have hlength := congrArg List.length hrest
            have hpos := List.length_pos_iff.2 hwide.bytes_ne_nil
            rw [List.length_append] at hlength
            omega

namespace Spelt

variable {s t : Text}

theorem append (h : Spelt s) (h' : Spelt t) : Spelt (s ++ t) := by
  induction h with
  | nil => exact h'
  | ascii ha hnul _ ih => exact .ascii ha hnul ih
  | wide hr hvalid _ ih =>
      rw [List.append_assoc]
      exact .wide hr hvalid ih

theorem replicate_space (n : Nat) : Spelt (List.replicate n Ascii.space) := by
  induction n with
  | zero => exact .nil
  | succ n ih => exact .ascii (by decide) (by decide) ih

/-- A byte below 0x80 is the start of a code point. -/
theorem of_append (h : Spelt (s ++ t)) (ht : ∀ b ∈ t.head?, b < 0x80) : Spelt s ∧ Spelt t := by
  generalize hu : s ++ t = u at h
  induction h generalizing s with
  | nil =>
      obtain ⟨rfl, rfl⟩ := List.append_eq_nil_iff.1 hu
      exact ⟨.nil, .nil⟩
  | @ascii a u ha hnul h ih =>
      cases s with
      | nil =>
          obtain rfl : t = a :: u := hu
          exact ⟨.nil, .ascii ha hnul h⟩
      | cons b s =>
          obtain ⟨rfl, hrest⟩ := List.cons.inj hu
          obtain ⟨hs, ht⟩ := ih hrest
          exact ⟨.ascii ha hnul hs, ht⟩
  | @wide r u hr hvalid h ih =>
      rcases List.append_eq_append_iff.1 hu with ⟨cut, hcut, rfl⟩ | ⟨more, rfl, hmore⟩
      · cases cut with
        | nil =>
            have hs : Spelt (r.bytes ++ []) := .wide hr hvalid .nil
            rw [hcut, List.append_nil, List.append_nil] at hs
            exact ⟨hs, h⟩
        | cons b cut =>
            have hhigh := hr.high b (by simp [hcut])
            exact absurd (ht b rfl) (UInt8.not_lt.2 hhigh)
      · obtain ⟨hs, ht⟩ := ih hmore.symm
        exact ⟨.wide hr hvalid hs, ht⟩

theorem forall_codePoints (h : Spelt t) :
    ∀ r ∈ t.codePoints, r.code ≠ 0 ∧ r.code ≠ CodePoint.replacement := by
  induction h with
  | nil =>
      intro r hr
      cases hr
  | @ascii a t ha hnul _ ih =>
      rw [codePoints_ascii ha]
      refine List.forall_mem_cons.2 ⟨?_, ih⟩
      simp only [UInt8.lt_iff_toNat_lt, UInt8.reduceToNat, ne_eq, ← UInt8.toNat_inj,
        CodePoint.replacement] at ha hnul ⊢
      omega
  | @wide r t hr hvalid _ ih =>
      rw [hr.codePoints]
      have hcode := hr.code
      exact List.forall_mem_cons.2 ⟨⟨by omega, hvalid⟩, ih⟩

theorem clean (h : Spelt t) : Clean t where
  utf8 := by
    refine List.all_eq_true.2 fun r hr => ?_
    simp [CodePoint.isStray, (h.forall_codePoints r hr).2]
  nul r hr := (h.forall_codePoints r hr).1
  replacement r hr := (h.forall_codePoints r hr).2

end Spelt

end Text

/-! ## Where lines start -/

namespace Position

def newlineEnds (p : Nat) : Text → List Nat
  | [] => []
  | b :: t => if b = Ascii.newline then (p + 1) :: newlineEnds (p + 1) t else newlineEnds (p + 1) t

theorem newlineEnds_append (p : Nat) (s t : Text) :
    newlineEnds p (s ++ t) = newlineEnds p s ++ newlineEnds (p + s.length) t := by
  induction s generalizing p with
  | nil => rfl
  | cons b s ih =>
      have hp : p + (b :: s).length = p + 1 + s.length := by
        rw [List.length_cons]
        omega
      rw [List.cons_append, newlineEnds, newlineEnds, ih, hp]
      split <;> rfl

theorem newlineEnds_of_not_mem {t : Text} (h : Ascii.newline ∉ t) (p : Nat) :
    newlineEnds p t = [] := by
  induction t generalizing p with
  | nil => rfl
  | cons b t ih =>
      obtain ⟨hb, ht⟩ := List.ne_and_not_mem_of_not_mem_cons h
      rw [newlineEnds, if_neg (Ne.symm hb), ih ht]

theorem length_newlineEnds (p : Nat) (t : Text) :
    (newlineEnds p t).length = t.count Ascii.newline := by
  induction t generalizing p with
  | nil => rfl
  | cons b t ih =>
      rw [newlineEnds, List.count_cons]
      split <;> simp_all

theorem startsFrom_spelt {t : Text} (h : t.Spelt) (p : Nat) :
    startsFrom p t.codePoints = .ok (newlineEnds p t) := by
  induction h generalizing p with
  | nil => rfl
  | @ascii a t ha hnul _ ih =>
      have hlt : a.toNat < 0x80 := UInt8.lt_iff_toNat_lt.1 ha
      have hzero : a.toNat ≠ 0 := fun h => hnul (UInt8.toNat_inj.1 h)
      have hvalid : a.toNat ≠ CodePoint.replacement := by
        rw [CodePoint.replacement]
        omega
      have hnewline : a.toNat = 10 ↔ a = Ascii.newline := UInt8.toNat_inj (b := Ascii.newline)
      rw [Text.codePoints_ascii ha, startsFrom, if_neg hzero, if_neg hvalid]
      simp only [CodePoint.size, List.length_singleton, ih, hnewline, newlineEnds]
  | @wide r t hr hvalid _ ih =>
      have hcode := hr.code
      have hnewline : Ascii.newline ∉ r.bytes := fun hmem => absurd (hr.high _ hmem) (by decide)
      rw [hr.codePoints, startsFrom, if_neg (by omega), if_neg hvalid, ih,
        newlineEnds_append, newlineEnds_of_not_mem hnewline]
      simp only [if_neg (show r.code ≠ 10 by omega)]
      rfl

theorem mem_newlineEnds {p q : Nat} {t : Text} (h : q ∈ newlineEnds p t) :
    p < q ∧ q ≤ p + t.length := by
  induction t generalizing p with
  | nil => cases h
  | cons b t ih =>
      rw [List.length_cons]
      have hlater : q ∈ newlineEnds (p + 1) t → p < q ∧ q ≤ p + (t.length + 1) := by
        intro h
        have hbounds := ih h
        omega
      rw [newlineEnds] at h
      split at h
      · rcases List.mem_cons.1 h with rfl | h
        · omega
        · exact hlater h
      · exact hlater h

theorem filter_newlineEnds {t : Text} {n : Nat} (hn : n ≤ t.length) :
    (newlineEnds 0 t).filter (· ≤ n) = newlineEnds 0 (t.take n) := by
  have hlength : (t.take n).length = n := List.length_take_of_le hn
  have hbefore : (newlineEnds 0 (t.take n)).filter (· ≤ n) = newlineEnds 0 (t.take n) := by
    refine List.filter_eq_self.2 fun q hq => decide_eq_true ?_
    have hbounds := mem_newlineEnds hq
    omega
  have hafter : (newlineEnds n (t.drop n)).filter (· ≤ n) = [] := by
    refine List.filter_eq_nil_iff.2 fun q hq => ?_
    have hbounds := mem_newlineEnds hq
    rw [decide_eq_true_eq]
    omega
  conv_lhs => rw [← List.take_append_drop n t]
  rw [newlineEnds_append, hlength, Nat.zero_add, List.filter_append, hbefore, hafter,
    List.append_nil]

def lastLine (t : Text) : Text := t.rtakeWhile (· != Ascii.newline)

theorem lastLine_concat (t : Text) (b : UInt8) :
    lastLine (t ++ [b]) = if b = Ascii.newline then [] else lastLine t ++ [b] := by
  rw [lastLine, List.rtakeWhile_concat, lastLine]
  by_cases hb : b = Ascii.newline
  · rw [if_neg (by simp [hb]), if_pos hb]
  · rw [if_pos (by simpa using hb), if_neg hb]

theorem drop_newlineEnds (t : Text) : t.drop ((newlineEnds 0 t).getLastD 0) = lastLine t := by
  induction t using List.reverseRecOn with
  | nil => rfl
  | append_singleton t b ih =>
      rw [newlineEnds_append, lastLine_concat]
      by_cases hb : b = Ascii.newline
      · rw [newlineEnds, if_pos hb, if_pos hb, newlineEnds, List.getLastD_concat]
        simp
      · have hle : (newlineEnds 0 t).getLastD 0 ≤ t.length := by
          have hlast : (newlineEnds 0 t).getLastD 0 ∈ 0 :: newlineEnds 0 t :=
            List.getLastD_mem_cons
          rcases List.mem_cons.1 hlast with hzero | hmem
          · omega
          · have hbounds := mem_newlineEnds hmem
            omega
        rw [newlineEnds, if_neg hb, if_neg hb, newlineEnds, List.append_nil,
          List.drop_append_of_le_length hle, ih]

theorem ofOffset_spelt {t : Text} (h : t.Spelt) {n : Nat} (hn : n ≤ t.length) :
    ofOffset t n = .ok ⟨1 + (t.take n).count Ascii.newline,
      1 + Text.codePointCount (lastLine (t.take n))⟩ := by
  have hstarts : lineStarts t = .ok (0 :: newlineEnds 0 t) := by
    rw [lineStarts, startsFrom_spelt h]
    rfl
  have hreached : (0 :: newlineEnds 0 t).filter (· ≤ n) = 0 :: newlineEnds 0 (t.take n) := by
    rw [List.filter_cons_of_pos (by simp), filter_newlineEnds hn]
  have hoffset : ofOffset t n = .ok (among t (0 :: newlineEnds 0 t) n) := by
    simp only [ofOffset, hstarts]
  rw [hoffset, among, hreached, List.getLastD_cons, drop_newlineEnds, List.length_cons,
    length_newlineEnds, Nat.add_comm]

end Position

/-- On clean texts the locator counts lines by the newlines before an offset, and columns by the
code points that come before it in its line. -/
def Locator.Counts (L : Locator) : Prop :=
  ∀ t : Text, t.Clean → ∀ n ≤ t.length,
    L.position t n = .ok ⟨1 + (t.take n).count Ascii.newline,
      1 + Text.codePointCount (Position.lastLine (t.take n))⟩

theorem Position.locator_counts : Position.locator.Counts :=
  fun _ hclean _ hn => Position.ofOffset_spelt hclean.spelt hn

end PoolProse
