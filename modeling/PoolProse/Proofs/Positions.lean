import PoolProse.Proofs.Extent
import PoolProse.Proofs.Layout
import PoolProse.Proofs.Rereading

/-!
# Texts that have positions

The locator reads the whole source before it places anything. So a document with an error in it is
read iff its source has positions at all, and characters put in between two others do not change
that if they are ASCII and not NUL.
-/
namespace PoolProse

/-! ## Code points on both sides of a place -/

namespace Text

open CodePoint (ofLead isHigh)

theorem codePointsFrom_append {x y : Text} {skip : Nat} (hskip : skip ≤ x.length)
    (hy : ∀ b ∈ y.head?, isHigh b = false) :
    codePointsFrom skip (x ++ y) = codePointsFrom skip x ++ codePoints y := by
  have hnil : y.takeWhile isHigh = [] := by
    cases y with
    | nil => rfl
    | cons b y => simp [hy b rfl]
  induction x generalizing skip with
  | nil =>
      obtain rfl := Nat.le_zero.1 hskip
      rfl
  | cons a x ih =>
      cases skip with
      | succ skip => exact ih (Nat.le_of_succ_le_succ hskip)
      | zero =>
          have hsame : ofLead a (x ++ y) = ofLead a x := by
            have hcut := CodePoint.ofLead_congr (s := []) hnil a x
            rwa [List.append_nil] at hcut
          have hsize := CodePoint.ofLead_size_le a x
          rw [List.cons_append, codePointsFrom, codePointsFrom, hsame, ih (by omega)]
          rfl

/-- No code point reaches over the start of a byte that is not high. -/
theorem codePoints_append {x y : Text} (hy : ∀ b ∈ y.head?, isHigh b = false) :
    codePoints (x ++ y) = codePoints x ++ codePoints y :=
  codePointsFrom_append (Nat.zero_le _) hy

theorem exists_of_mem_codePoints {t : Text} (ht : ∀ b ∈ t, isHigh b = false) :
    ∀ r ∈ codePoints t, ∃ b ∈ t, r.code = b.toNat := by
  induction t with
  | nil => exact fun r hr => absurd hr List.not_mem_nil
  | cons a t ih =>
      obtain ⟨ha, ht⟩ := List.forall_mem_cons.1 ht
      have hlow : a < 0x80 := UInt8.not_le.1 (of_decide_eq_false ha)
      rw [codePoints_ascii hlow, List.forall_mem_cons]
      refine ⟨⟨a, List.mem_cons_self, rfl⟩, ?_⟩
      intro r hr
      obtain ⟨b, hb, hcode⟩ := ih ht r hr
      exact ⟨b, List.mem_cons_of_mem a hb, hcode⟩

end Text

/-! ## Where lines start -/

namespace Position

theorem isOk_startsFrom_cons (p : Nat) (r : CodePoint) (rs : List CodePoint) :
    (startsFrom p (r :: rs)).isOk =
      (r.code == 0 || (r.code != CodePoint.replacement && (startsFrom (p + r.size) rs).isOk)) := by
  rw [startsFrom]
  by_cases hzero : r.code = 0
  · rw [if_pos hzero, hzero]
    rfl
  by_cases hbad : r.code = CodePoint.replacement
  · rw [if_neg hzero, if_pos hbad, hbad]
    rfl
  rw [if_neg hzero, if_neg hbad]
  simp only [beq_eq_false_iff_ne.2 hzero, bne_iff_ne.2 hbad, Bool.false_or, Bool.true_and]
  cases startsFrom (p + r.size) rs <;> rfl

theorem isOk_startsFrom_insert {new : List CodePoint}
    (hnew : ∀ r ∈ new, r.code ≠ 0 ∧ r.code ≠ CodePoint.replacement) (rs rs' : List CodePoint)
    (p q : Nat) :
    (startsFrom p (rs ++ (new ++ rs'))).isOk = (startsFrom q (rs ++ rs')).isOk := by
  induction rs generalizing p q with
  | cons r rs ih =>
      rw [List.cons_append, List.cons_append, isOk_startsFrom_cons, isOk_startsFrom_cons, ih]
  | nil =>
      rw [List.nil_append, List.nil_append]
      induction new generalizing p with
      | nil =>
          rw [List.nil_append]
          induction rs' generalizing p q with
          | nil => rfl
          | cons r rs' ih => rw [isOk_startsFrom_cons, isOk_startsFrom_cons, ih]
      | cons r new ih =>
          obtain ⟨⟨hzero, hbad⟩, hnew⟩ := List.forall_mem_cons.1 hnew
          rw [List.cons_append, isOk_startsFrom_cons, ih hnew, beq_eq_false_iff_ne.2 hzero,
            bne_iff_ne.2 hbad, Bool.false_or, Bool.true_and]

theorem isOk_lineStarts (source : Text) :
    (lineStarts source).isOk = (startsFrom 0 source.codePoints).isOk := by
  rw [lineStarts]
  cases startsFrom 0 source.codePoints <;> rfl

theorem isOk_ofOffset {source : Text} {offset : Int} (h : 0 ≤ offset) :
    (ofOffset source offset).isOk = (lineStarts source).isOk := by
  obtain ⟨n, rfl⟩ := Int.eq_ofNat_of_zero_le h
  unfold ofOffset
  cases lineStarts source <;> rfl

/-- ASCII characters put in before another one neither give positions to a text nor take them. -/
theorem isOk_lineStarts_insert {new : Text}
    (hnew : ∀ b ∈ new, CodePoint.isHigh b = false ∧ b ≠ Ascii.nul) (x : Text) {y : Text}
    (hy : ∀ b ∈ y.head?, CodePoint.isHigh b = false) :
    (lineStarts (x ++ (new ++ y))).isOk = (lineStarts (x ++ y)).isOk := by
  have hcodes : ∀ r ∈ new.codePoints, r.code ≠ 0 ∧ r.code ≠ CodePoint.replacement := by
    intro r hr
    obtain ⟨b, hb, hcode⟩ := Text.exists_of_mem_codePoints (fun b hb => (hnew b hb).1) r hr
    have hlt := b.toNat_lt
    constructor
    · intro hzero
      exact (hnew b hb).2 (UInt8.toNat_inj.1 (hcode.symm.trans hzero))
    · rw [hcode, CodePoint.replacement]
      omega
  have hfirst : ∀ b ∈ (new ++ y).head?, CodePoint.isHigh b = false := by
    cases new with
    | nil => exact hy
    | cons a new =>
        intro b hb
        obtain rfl := Option.some.inj hb
        exact (hnew a List.mem_cons_self).1
  rw [isOk_lineStarts, isOk_lineStarts, Text.codePoints_append hfirst, Text.codePoints_append hy,
    Text.codePoints_append hy, isOk_startsFrom_insert hcodes]

end Position

/-! ## Documents -/

namespace Document

open Statement (outcome)

theorem isLocated_of_locateAll [Locator] {file source : Text} {ts : List Token}
    {sts : List Statement} {d : Document} (h : locateAll file source ts sts = .ok d) :
    ∀ s ∈ sts, s.isLocated source = true := by
  induction sts generalizing d with
  | nil => exact fun s hs => absurd hs List.not_mem_nil
  | cons s sts ih =>
      cases s with
      | ok e =>
          simp only [locateAll] at h
          split at h
          case h_1 => cases h
          case h_2 hrest => exact List.forall_mem_cons.2 ⟨rfl, ih hrest⟩
      | error e =>
          simp only [locateAll, locate] at h
          cases hp : Locator.position source e.token.offset with
          | error f =>
              rw [hp] at h
              cases h
          | ok p =>
              rw [hp] at h
              simp only at h
              split at h
              case h_1 => cases h
              case h_2 hrest =>
                exact List.forall_mem_cons.2 ⟨by rw [Statement.isLocated, hp]; rfl, ih hrest⟩

/-- A text is read iff it has positions or needs none. -/
theorem locatable_iff (text : Text) :
    Locatable text ↔ (Position.lineStarts text).isOk = true ∨
      ∀ o ∈ (Statement.ofTokens (tokenize text)).map outcome, o.isOk = true := by
  have hplace : ∀ e, .error e ∈ Statement.ofTokens (tokenize text) →
      (Locator.position text e.token.offset).isOk = (Position.lineStarts text).isOk := by
    intro e he
    obtain ⟨line, hline, hmem⟩ := Statement.exists_line_of_error he
    have hle := (Token.covers_tokenize text).offset_le _ (Line.mem_of_mem_split hline hmem)
    exact Position.isOk_ofOffset hle
  rw [List.forall_mem_map]
  constructor
  · intro h
    by_cases hstarts : (Position.lineStarts text).isOk = true
    · exact Or.inl hstarts
    right
    intro s hs
    cases s with
    | ok e => rfl
    | error e => exact absurd ((hplace e hs).symm.trans (h _ hs)) hstarts
  · rintro (hstarts | hok) s hs
    · cases s with
      | ok e => rfl
      | error e => exact (hplace e hs).trans hstarts
    · cases s with
      | ok e => rfl
      | error e => cases hok _ hs

theorem toOption_parse [Locator] (file text : Text) : (parse file text).toOption.map statements =
    if Locatable text then some (Statement.ofTokens (tokenize text)) else none := by
  split
  case isTrue h =>
    obtain ⟨d, hd, hstatements⟩ := parse_locatable file h
    rw [hd, ← hstatements]
    rfl
  case isFalse h =>
    cases hd : parse file text with
    | error f => rfl
    | ok d => exact absurd (isLocated_of_locateAll hd) h

theorem outcomes_congr (file : Text) {text text' : Text}
    (hstarts : (Position.lineStarts text).isOk = (Position.lineStarts text').isOk)
    (houtcome : (Statement.ofTokens (tokenize text)).map outcome =
      (Statement.ofTokens (tokenize text')).map outcome) :
    (parse file text).toOption.map (·.statements.map outcome) =
      (parse file text').toOption.map (·.statements.map outcome) := by
  have hread : ∀ t, (parse file t).toOption.map (·.statements.map outcome) =
      if Locatable t then some ((Statement.ofTokens (tokenize t)).map outcome) else none := by
    intro t
    have hcomp : (fun d : Document => d.statements.map outcome) = List.map outcome ∘ statements :=
      rfl
    rw [hcomp, ← Option.map_map, toOption_parse]
    split <;> rfl
  have hlocatable : Locatable text ↔ Locatable text' := by
    rw [locatable_iff, locatable_iff, hstarts, houtcome]
  rw [hread, hread, houtcome]
  simp only [hlocatable]

end Document

end PoolProse
