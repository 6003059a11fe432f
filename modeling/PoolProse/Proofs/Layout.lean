import PoolProse.Proofs.LineStatements
import PoolProse.Proofs.Locating

/-!
# A source laid out from tokens

Tokens can be read with the text they were scanned from, or with a source that is laid out from them
alone, where all that was left out of the text is blank. The statements are the same. If the text is
clean and none of its lines is continued, the errors are also found at the same places, because a
comment has nothing after it on its line.
-/
namespace PoolProse

open Position (lastLine lastLine_concat)

/-! ## The layout of the tokens of a text -/

namespace Document

theorem layoutFrom_token (p n : Nat) (k : Token.Kind) (read : Text) (ts : List Token) :
    layoutFrom p (⟨k, read, (p + n : Nat)⟩ :: ts) =
      List.replicate n Ascii.space ++ (read ++ layoutFrom (p + n + read.length) ts) := by
  have hgap : (((p + n : Nat) : Int) - (p : Int)).toNat = n := by omega
  simp only [layoutFrom, hgap, List.append_assoc]

theorem layoutFrom_next (p : Nat) (k : Token.Kind) (read : Text) (ts : List Token) :
    layoutFrom p (⟨k, read, p⟩ :: ts) = read ++ layoutFrom (p + read.length) ts :=
  layoutFrom_token p 0 k read ts

theorem layoutFrom_eof (p n : Nat) :
    layoutFrom p [⟨.eof, [], (p + n : Nat)⟩] = List.replicate n Ascii.space := by
  rw [layoutFrom_token, layoutFrom, List.append_nil, List.append_nil]

end Document

namespace Token

open Document (layoutFrom layoutFrom_token layoutFrom_next layoutFrom_eof)

theorem covers_tokenize (text : Text) : Covers ([] : Text).length text (tokenize text) :=
  scanFrom_covers ⟨true, false⟩ 0 text

/-- The byte at the offset `i` belongs to one of the tokens. -/
def Holds (ts : List Token) (i : Nat) : Prop := ∃ t ∈ ts, t.offset ≤ i ∧ i < t.stop

theorem Covers.length_layoutFrom {p : Nat} {t : Text} {ts : List Token} (h : Covers p t ts) :
    (layoutFrom p ts).length = t.length := by
  induction h with
  | eof => rw [layoutFrom_eof, List.length_replicate]
  | token _ _ _ _ ih =>
      rw [layoutFrom_token]
      simp only [List.length_append, List.length_replicate, ih]

theorem holds_cons {p n i : Nat} {k : Kind} {read : Text} {ts : List Token} :
    Holds (⟨k, read, (p + n : Nat)⟩ :: ts) (p + i) ↔
      (n ≤ i ∧ i < n + read.length) ∨ Holds ts (p + i) := by
  simp only [Holds, List.exists_mem_cons_iff, stop]
  refine or_congr_left ?_
  omega

theorem getElem?_skip {α : Type} (gap read rest : List α) (i : Nat) :
    (gap ++ (read ++ rest))[gap.length + read.length + i]? = rest[i]? := by
  rw [← List.append_assoc, List.getElem?_append_right (by rw [List.length_append]; omega),
    List.length_append, Nat.add_sub_cancel_left]

theorem Covers.not_holds {p i : Nat} {t : Text} {ts : List Token} (h : Covers p t ts)
    (hi : i < p) : ¬ Holds ts i := by
  rintro ⟨u, hu, hle, -⟩
  have hp := h.offset_le u hu
  omega

/-- A byte of the layout is the one of the text if it belongs to a token, and blank otherwise. -/
theorem Covers.getElem?_layoutFrom {p : Nat} {t : Text} {ts : List Token} (h : Covers p t ts)
    {i : Nat} (hi : i < t.length) :
    Holds ts (p + i) ∧ (layoutFrom p ts)[i]? = t[i]? ∨
      ¬ Holds ts (p + i) ∧ (layoutFrom p ts)[i]? = some Ascii.space := by
  induction h generalizing i with
  | @eof p gap =>
      refine Or.inr ⟨?_, ?_⟩
      · rintro ⟨u, hu, hle, hlt⟩
        rw [List.mem_singleton.1 hu] at hle hlt
        simp only [stop, List.length_nil] at hle hlt
        omega
      · rw [layoutFrom_eof, List.getElem?_replicate, if_pos hi]
  | @token p k gap read rest ts _ _ _ h ih =>
      rw [layoutFrom_token, holds_cons]
      by_cases hgap : i < gap.length
      · have hts : ¬ Holds ts (p + i) := h.not_holds (by omega)
        refine Or.inr ⟨?_, ?_⟩
        · rintro (hread | hlater)
          · omega
          · exact hts hlater
        · rw [List.getElem?_append_left (by rwa [List.length_replicate]), List.getElem?_replicate,
            if_pos hgap]
      by_cases hread : i < gap.length + read.length
      · refine Or.inl ⟨Or.inl ⟨by omega, hread⟩, ?_⟩
        rw [List.getElem?_append_right (by rw [List.length_replicate]; omega),
          List.getElem?_append_left (by rw [List.length_replicate]; omega),
          List.getElem?_append_right (by omega), List.getElem?_append_left (by omega),
          List.length_replicate]
      · obtain ⟨j, rfl⟩ := Nat.exists_eq_add_of_le (Nat.le_of_not_lt hread)
        have hskip := getElem?_skip (List.replicate gap.length Ascii.space) read
          (layoutFrom (p + gap.length + read.length) ts) j
        have hj : j < rest.length := by
          simp only [List.length_append] at hi
          omega
        have hoff : ¬ (gap.length ≤ gap.length + read.length + j ∧
            gap.length + read.length + j < gap.length + read.length) := fun h => hread h.2
        have hrest := ih hj
        rw [List.length_replicate] at hskip
        rw [hskip, getElem?_skip, or_iff_right hoff]
        rwa [Nat.add_assoc, Nat.add_assoc, ← Nat.add_assoc gap.length] at hrest

/-! ## Texts in which no line is continued -/

/-- No line is continued: what is left out of the text before a token does not start with a
continuation. -/
def Unbroken (text : Text) : Prop :=
  ∀ gap ∈ gapsFrom text 0 (tokenize text), ∀ line, IsContinuation line → ¬ line <+: gap

theorem text_of_newline (c : Context) (p : Nat) (t : Text) :
    ∀ u ∈ scanFrom c p t, u.kind = .newline → u.text = [Ascii.newline] := by
  induction c, p, t using scan_induction with
  | nil c p =>
      rw [scanFrom_nil]
      intro u hu hk
      rw [List.mem_singleton.1 hu] at hk
      cases hk
  | step c p k read rest _ hl hsp ih =>
      rw [scanFrom_append hl]
      intro u hu hk
      rcases List.mem_append.1 hu with hu | hu
      · cases hsp with
        | continuation => cases hu
        | comment => cases hu
        | rule hrule =>
            rw [List.mem_singleton.1 hu] at hk
            rcases hrule with rfl | rfl <;> cases hk
        | newline => rw [List.mem_singleton.1 hu]
        | inside hin =>
            rw [List.mem_singleton.1 hu] at hk
            obtain rfl : _ = Kind.newline := hk
            cases hin
      · exact ih u hu hk

/-- The tokens and, at the ends of lines, comments make up the text `t`, whose first byte is at
`p`. -/
inductive Tiles : Nat → Text → List Token → Prop where
  | eof {p : Nat} {gap : Text} (hgap : gap = [] ∨ IsComment gap) :
      Tiles p gap [⟨.eof, [], (p + gap.length : Nat)⟩]
  | token {p : Nat} {k : Kind} {read rest : Text} {ts : List Token}
      (h : Tiles (p + read.length) rest ts) : Tiles p (read ++ rest) (⟨k, read, p⟩ :: ts)
  | comment {p : Nat} {gap rest : Text} {ts : List Token} (hgap : IsComment gap)
      (h : Tiles (p + gap.length + 1) rest ts) :
      Tiles p (gap ++ Ascii.newline :: rest)
        (⟨.newline, [Ascii.newline], (p + gap.length : Nat)⟩ :: ts)

theorem IsGap.isComment {k : Kind} {gap : Text} (h : IsGap k gap)
    (hwhole : ∀ line, IsContinuation line → ¬ line <+: gap) :
    gap = [] ∨ IsComment gap ∧ (k = .newline ∨ k = .eof) := by
  obtain ⟨continued, comment, rfl, hcontinued, hcomment⟩ := h
  cases hcontinued with
  | nil => exact hcomment
  | cons hline _ =>
      refine absurd ?_ (hwhole _ hline)
      rw [List.append_assoc]
      exact List.prefix_append _ _

theorem Covers.tiles {before t : Text} {ts : List Token} (h : Covers before.length t ts)
    (hnewline : ∀ u ∈ ts, u.kind = .newline → u.text = [Ascii.newline])
    (hwhole : ∀ gap ∈ gapsFrom (before ++ t) before.length ts, ∀ line, IsContinuation line →
      ¬ line <+: gap) :
    Tiles before.length t ts := by
  generalize hp : before.length = p at h hwhole ⊢
  induction h generalizing before with
  | @eof p gap hgap =>
      subst hp
      have hb := Text.between_append before gap []
      rw [List.append_nil] at hb
      have hcomment := hgap.isComment (hwhole gap (by simp only [gapsFrom, hb, List.mem_singleton]))
      exact .eof (hcomment.imp_right And.left)
  | @token p k gap read rest ts hgap hk hread h ih =>
      subst hp
      obtain ⟨hfirst, hnewline⟩ := List.forall_mem_cons.1 hnewline
      have hb := Text.between_append before gap (read ++ rest)
      rw [gapsFrom, hb] at hwhole
      obtain ⟨hbefore, hafter⟩ := List.forall_mem_cons.1 hwhole
      have htiles := @ih (before ++ gap ++ read) hnewline (by simp only [List.length_append])
        (by rw [List.append_assoc, List.append_assoc]; exact hafter)
      rcases hgap.isComment hbefore with rfl | ⟨hcomment, hkind⟩
      · exact .token htiles
      · obtain rfl := hkind.resolve_right hk
        obtain rfl : read = [Ascii.newline] := hfirst rfl
        exact .comment hcomment htiles

theorem IsComment.newline_not_mem {gap : Text} (h : IsComment gap) : Ascii.newline ∉ gap := by
  obtain ⟨before, after, rfl, hbefore, hafter⟩ := h
  intro hmem
  rw [List.append_assoc, List.mem_append, List.mem_append] at hmem
  rcases hmem with hmem | hmem | hmem
  · exact absurd (hbefore _ hmem) (by decide)
  · exact absurd hmem (by decide)
  · exact hafter hmem

theorem IsComment.head_lt {gap : Text} (h : IsComment gap) (rest : Text) :
    ∀ b ∈ (gap ++ rest).head?, b < 0x80 := by
  obtain ⟨before, after, rfl, hbefore, -⟩ := h
  intro b hb
  cases before with
  | nil =>
      obtain rfl : Ascii.dash = b := Option.some.inj hb
      decide
  | cons a before =>
      obtain rfl : a = b := Option.some.inj hb
      rcases Text.isBlank_iff.1 (hbefore a List.mem_cons_self) with rfl | rfl | rfl <;> decide

theorem Tiles.spelt {p : Nat} {t : Text} {ts : List Token} (h : Tiles p t ts) (before : Text)
    (hspelt : Text.Spelt (before ++ t)) : Text.Spelt (before ++ layoutFrom p ts) := by
  induction h generalizing before with
  | @eof p gap hgap =>
      rw [layoutFrom_eof]
      rcases hgap with rfl | hcomment
      · exact hspelt
      · rw [← List.append_nil gap] at hspelt
        exact (hspelt.of_append (hcomment.head_lt [])).1.append (.replicate_space _)
  | @token p k read rest ts h ih =>
      rw [layoutFrom_next, ← List.append_assoc]
      exact ih (before ++ read) (by rwa [List.append_assoc])
  | @comment p gap rest ts hgap h ih =>
      rw [layoutFrom_token]
      obtain ⟨hbefore, hline⟩ := hspelt.of_append (hgap.head_lt _)
      obtain ⟨-, hrest⟩ := hline.of_append (t := Ascii.newline :: rest) (by simp; decide)
      exact hbefore.append (.append (.replicate_space _) (ih [Ascii.newline] hrest))

end Token

/-! ## The same lines -/

/-- The two texts have the same number of newlines and the same bytes after the last of them. -/
structure Text.SameLine (s t : Text) : Prop where
  count : s.count Ascii.newline = t.count Ascii.newline
  last : lastLine s = lastLine t

namespace Text.SameLine

variable {s t : Text}

theorem append_right (h : SameLine s t) (u : Text) : SameLine (s ++ u) (t ++ u) where
  count := by rw [List.count_append, List.count_append, h.count]
  last := by
    induction u using List.reverseRecOn with
    | nil => simpa using h.last
    | append_singleton u b ih =>
        rw [← List.append_assoc, ← List.append_assoc, lastLine_concat, lastLine_concat, ih]

theorem newline (h : SameLine s t) {u v : Text} (hu : Ascii.newline ∉ u)
    (hv : Ascii.newline ∉ v) :
    SameLine (s ++ u ++ [Ascii.newline]) (t ++ v ++ [Ascii.newline]) where
  count := by
    simp only [List.count_append, h.count, List.count_eq_zero_of_not_mem hu,
      List.count_eq_zero_of_not_mem hv]
  last := by rw [lastLine_concat, lastLine_concat, if_pos rfl, if_pos rfl]

end Text.SameLine

/-- A token that does not end a line stands on the same line in the text and in its layout. -/
theorem Token.Tiles.sameLine {p : Nat} {t : Text} {ts : List Token} (h : Tiles p t ts)
    {before before' : Text} (hp : before.length = p) (hp' : before'.length = p)
    (hsame : Text.SameLine before before') {u : Token} (hu : u ∈ ts) (hnewline : u.kind ≠ .newline)
    (heof : u.kind ≠ .eof) :
    Text.SameLine ((before ++ t).take u.offset.toNat)
      ((before' ++ Document.layoutFrom p ts).take u.offset.toNat) := by
  induction h generalizing before before' with
  | eof =>
      rw [List.mem_singleton.1 hu] at heof
      exact absurd rfl heof
  | @token p k read rest ts h ih =>
      rw [Document.layoutFrom_next]
      rcases List.mem_cons.1 hu with rfl | hu
      · rw [Int.toNat_natCast, List.take_left' hp, List.take_left' hp']
        exact hsame
      · rw [← List.append_assoc, ← List.append_assoc]
        exact ih (by rw [List.length_append, hp]) (by rw [List.length_append, hp'])
          (hsame.append_right read) hu
  | @comment p gap rest ts hgap h ih =>
      rcases List.mem_cons.1 hu with rfl | hu
      · exact absurd rfl hnewline
      · rw [Document.layoutFrom_token]
        have hsplit : before ++ (gap ++ Ascii.newline :: rest) =
            before ++ gap ++ [Ascii.newline] ++ rest := by simp
        have hsplit' : before' ++ (List.replicate gap.length Ascii.space ++
            ([Ascii.newline] ++ Document.layoutFrom (p + gap.length + 1) ts)) =
            before' ++ List.replicate gap.length Ascii.space ++ [Ascii.newline] ++
              Document.layoutFrom (p + gap.length + 1) ts := by simp
        rw [hsplit, List.length_singleton, hsplit']
        have hspaces : Ascii.newline ∉ List.replicate gap.length Ascii.space :=
          fun hmem => absurd (List.eq_of_mem_replicate hmem) (by decide)
        exact ih (by simp [hp, Nat.add_assoc]) (by simp [hp', Nat.add_assoc])
          (hsame.newline hgap.newline_not_mem hspaces) hu

/-! ## Errors blame a token of a line -/

/-- Reading does not look at offsets, so it cannot make up a token. -/
theorem Statement.exists_line_of_error {lines : List Line} {e : SyntaxError}
    (h : .error e ∈ ofLines lines) : ∃ line ∈ lines, e.token ∈ line := by
  classical
  -- tokens that stand in no line are moved, which the statements do not notice
  let f : Token → Token := fun t =>
    if ∃ line ∈ lines, t ∈ line then t else { t with offset := t.offset + 1 }
  have hkeeps : Token.Keeps f := by
    constructor <;> intro t <;> simp only [f] <;> split <;> rfl
  have hline : ∀ line ∈ lines, line.map f = line := by
    intro line hline
    conv_rhs => rw [← List.map_id line]
    exact List.map_congr_left fun t ht => if_pos ⟨line, hline, ht⟩
  have hlines : lines.map (List.map f) = lines := by
    conv_rhs => rw [← List.map_id lines]
    exact List.map_congr_left hline
  have hfixed := ofLines_map hkeeps lines
  rw [hlines] at hfixed
  have hall := List.map_inj_left.1 (hfixed.symm.trans (List.map_id _).symm)
  have htoken : f e.token = e.token :=
    congrArg SyntaxError.token (Except.error.inj (hall (.error e) h))
  by_contra hnone
  have hmoved := congrArg Token.offset htoken
  simp only [f, if_neg hnone] at hmoved
  omega

theorem Line.kind_of_mem_split {text : Text} {line : Line} {t : Token}
    (hline : line ∈ split (tokenize text)) (ht : t ∈ line) :
    t.kind ≠ .newline ∧ t.kind ≠ .eof := by
  rcases tidy_of_mem_split hline with hin | ⟨u, rfl, hk⟩
  · have hinside := hin t ht
    constructor <;> intro hk <;> rw [hk] at hinside <;> cases hinside
  · rw [List.mem_singleton.1 ht]
    rcases hk with hk | hk <;> simp [hk]

/-! ## The two ways to read -/

namespace Document

theorem locateAll_congr [Locator] {file source source' : Text} {ts : List Token}
    {sts : List Statement} (h : ∀ e, .error e ∈ sts →
      Locator.position source e.token.offset = Locator.position source' e.token.offset) :
    locateAll file source ts sts = locateAll file source' ts sts := by
  induction sts with
  | nil => rfl
  | cons s sts ih =>
      have hrest := ih fun e he => h e (List.mem_cons_of_mem s he)
      cases s with
      | ok e => simp only [locateAll, hrest]
      | error e => simp only [locateAll, locate, hrest, h e List.mem_cons_self]

theorem issues_map_of_locateAll [Locator] {file source : Text} {ts : List Token}
    {sts : List Statement} {d : Document} (h : locateAll file source ts sts = .ok d) :
    d.issues.map (fun i => (i.error.code, i.error.arguments, i.index)) =
      (sts.filterMap Statement.error?).map fun e =>
        (e.code, e.arguments, indexOf ts e.token) := by
  rw [← statements_of_locateAll h, ← issues_map_error, List.map_map]
  refine List.map_congr_left fun i hi => ?_
  have hlocate := locate_of_mem_issues h hi
  unfold locate at hlocate
  split at hlocate
  · cases hlocate
  · rw [← Except.ok.inj hlocate]
    rfl

theorem position_of_error [L : Locator] (hcounts : L.Counts) {text : Text} (hclean : text.Clean)
    (hunbroken : Token.Unbroken text) {e : SyntaxError}
    (he : .error e ∈ Statement.ofTokens (tokenize text)) :
    ∃ n : Nat, e.token.offset = n ∧
      Locator.position text n = .ok ⟨1 + (text.take n).count Ascii.newline,
        1 + Text.codePointCount (lastLine (text.take n))⟩ ∧
      Locator.position (layout (tokenize text)) n = Locator.position text n := by
  obtain ⟨line, hline, hmem⟩ := Statement.exists_line_of_error he
  obtain ⟨hnewline, heof⟩ := Line.kind_of_mem_split hline hmem
  replace hmem := Line.mem_of_mem_split hline hmem
  have hcovers := Token.covers_tokenize text
  have htiles := hcovers.tiles (Token.text_of_newline _ _ _) hunbroken
  obtain ⟨n, hn⟩ := Int.eq_ofNat_of_zero_le (hcovers.offset_le _ hmem)
  have hlength : n ≤ text.length := by
    have hstop := (hcovers.slices _ hmem).1
    rw [Token.stop, hn, List.nil_append] at hstop
    omega
  have hspelt := hclean.spelt
  have hsame := htiles.sameLine rfl rfl ⟨rfl, rfl⟩ hmem hnewline heof
  rw [hn, List.nil_append, List.nil_append, Int.toNat_natCast] at hsame
  have hlayout : (layout (tokenize text)).Clean := (htiles.spelt [] hspelt).clean
  have hequal : (layout (tokenize text)).length = text.length := hcovers.length_layoutFrom
  refine ⟨n, hn, hcounts text hclean n hlength, ?_⟩
  rw [hcounts text hclean n hlength, layout, hsame.count, hsame.last]
  exact hcounts _ hlayout n (by rwa [hequal])

/-- Reading the tokens of a text agrees with reading the text. The source that is laid out from the
tokens is as long as the text, has the bytes of the text where a token is, and is blank where a
comment or a continued line was left out. So where both ways to read have a result the statements
are the same, whatever tells the places. If that counts lines and code points, the text is clean and
no line of it is continued, both have the same result, with the line and the column that the text
has at the token. -/
theorem ofTokens_eq_parse [L : Locator] (text : Text) :
    (layout (tokenize text)).length = text.length ∧
    List.Forall₂ (fun gap t => Token.IsGap t.kind gap)
      (Token.gapsFrom text 0 (tokenize text)) (tokenize text) ∧
    (∀ i < text.length, Token.Holds (tokenize text) i →
      (layout (tokenize text))[i]? = text[i]?) ∧
    (∀ i < text.length, ¬ Token.Holds (tokenize text) i →
      (layout (tokenize text))[i]? = some Ascii.space) ∧
    (∀ d d', parse [] text = .ok d → ofTokens (tokenize text) = .ok d' →
      d.statements = d'.statements ∧ d.expressions = d'.expressions ∧
      d.issues.map (fun i => (i.error.code, i.error.arguments, i.index)) =
        d'.issues.map fun i => (i.error.code, i.error.arguments, i.index)) ∧
    (L.Counts → text.Clean → Token.Unbroken text →
      ∃ d, parse [] text = .ok d ∧ ofTokens (tokenize text) = .ok d ∧
        ∀ i ∈ d.issues, ∃ n : Nat, i.error.token.offset = n ∧
          i.location = ⟨[], 1 + (text.take n).count Ascii.newline,
            1 + Text.codePointCount (lastLine (text.take n))⟩) := by
  have hcovers := Token.covers_tokenize text
  have hbyte : ∀ i < text.length,
      Token.Holds (tokenize text) i ∧ (layout (tokenize text))[i]? = text[i]? ∨
        ¬ Token.Holds (tokenize text) i ∧
          (layout (tokenize text))[i]? = some Ascii.space := by
    intro i hi
    have h := hcovers.getElem?_layoutFrom hi
    rwa [List.length_nil, Nat.zero_add] at h
  refine ⟨hcovers.length_layoutFrom, hcovers.gaps.1, ?_, ?_, ?_, ?_⟩
  · intro i hi hholds
    exact ((hbyte i hi).resolve_right fun h => h.1 hholds).2
  · intro i hi hnot
    exact ((hbyte i hi).resolve_left fun h => hnot h.1).2
  · intro d d' hd hd'
    have hstatements : d.statements = d'.statements := by
      rw [statements_of_locateAll hd, statements_of_locateAll hd']
    refine ⟨hstatements, by rw [expressions_eq, expressions_eq, hstatements], ?_⟩
    rw [issues_map_of_locateAll hd, issues_map_of_locateAll hd']
  · intro hcounts hclean hunbroken
    have hlocated : Locatable text := by
      intro s hs
      cases s with
      | ok e => rfl
      | error e =>
          obtain ⟨n, hn, hposition, -⟩ := position_of_error hcounts hclean hunbroken hs
          rw [Statement.isLocated, hn, hposition]
          rfl
    obtain ⟨d, hd, hstatements⟩ := parse_locatable [] hlocated
    refine ⟨d, hd, ?_, ?_⟩
    · rw [← hd]
      refine locateAll_congr fun e he => ?_
      obtain ⟨n, hn, -, hsame⟩ := position_of_error hcounts hclean hunbroken he
      rw [hn, hsame]
    · intro i hi
      have hmem := error_mem_statements hi
      rw [hstatements] at hmem
      obtain ⟨n, hn, hposition, -⟩ := position_of_error hcounts hclean hunbroken hmem
      have hlocate := locate_of_mem_issues hd hi
      rw [locate, hn, hposition] at hlocate
      exact ⟨n, hn, (congrArg SyntaxIssue.location (Except.ok.inj hlocate)).symm⟩

/-- A comment of fewer code points than bytes has an error before it and one on the next line. -/
theorem ofTokens_eq_parse_comment :
    Text.Clean (utf8 "a) -- é\n é) b") ∧ Token.Unbroken (utf8 "a) -- é\n é) b") ∧
    layout (tokenize (utf8 "a) -- é\n é) b")) = utf8 "a)      \n é) b" ∧
    ∃ d, parse [] (utf8 "a) -- é\n é) b") = .ok d ∧
      ofTokens (tokenize (utf8 "a) -- é\n é) b")) = .ok d ∧
      d.issues.map SyntaxIssue.location = [⟨[], 1, 2⟩, ⟨[], 2, 3⟩] := by
  have hclean : Text.Clean (utf8 "a) -- é\n é) b") :=
    ⟨by decide +kernel, by decide +kernel, by decide +kernel⟩
  have hunbroken : Token.Unbroken (utf8 "a) -- é\n é) b") := by
    rintro gap hgap line (rfl | rfl)
    · revert gap
      decide +kernel
    · revert gap
      decide +kernel
  obtain ⟨-, -, -, -, -, hsame⟩ := ofTokens_eq_parse (utf8 "a) -- é\n é) b")
  obtain ⟨d, hd, htokens, -⟩ := hsame Position.locator_counts hclean hunbroken
  have hissues : (parse [] (utf8 "a) -- é\n é) b")).map
      (fun d => d.issues.map SyntaxIssue.location) = .ok [⟨[], 1, 2⟩, ⟨[], 2, 3⟩] := by
    decide +kernel
  rw [hd] at hissues
  exact ⟨hclean, hunbroken, by decide +kernel, d, hd, htokens, Except.ok.inj hissues⟩

end Document

end PoolProse
