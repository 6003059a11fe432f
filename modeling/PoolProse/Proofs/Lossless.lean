import Mathlib.Data.List.Forall2
import PoolProse.Proofs.Lexeme

/-!
# Scanning loses nothing

The tokens of a text are pieces of it, in order and apart from each other. What stands between two
of them are continued lines and, where the line ends after it, a comment. So the text is put
together again from the tokens and these gaps.
-/
namespace PoolProse

namespace Text

def between (t : Text) (p q : Int) : Text := (t.take q.toNat).drop p.toNat

theorem between_append (before middle after : Text) :
    between (before ++ (middle ++ after)) before.length (before.length + middle.length : Nat) =
      middle := by
  rw [between, Int.toNat_natCast, Int.toNat_natCast, ← List.append_assoc,
    List.take_left' (by rw [List.length_append]), List.drop_left' rfl]

end Text

namespace Token

open Text (isBlank blanks atLineEnd)

def stop (t : Token) : Int := t.offset + t.text.length

/-- Any number of continued lines, one after the other. -/
inductive Continued : Text → Prop where
  | nil : Continued []
  | cons {line rest : Text} (h : IsContinuation line) (hrest : Continued rest) :
      Continued (line ++ rest)

/-- What may stand before a token of kind `next`: continued lines, and then a comment if the line
ends there. -/
def IsGap (next : Kind) (gap : Text) : Prop :=
  ∃ continued comment, gap = continued ++ comment ∧ Continued continued ∧
    (comment = [] ∨ IsComment comment ∧ (next = .newline ∨ next = .eof))

/-- The stretches of a text before each of the tokens, from the offset `p` on. -/
def gapsFrom (text : Text) (p : Int) : List Token → List Text
  | [] => []
  | t :: ts => text.between p t.offset :: gapsFrom text t.stop ts

/-! ## Gaps and tokens cover the text -/

/-- The tokens and the gaps before them spell the text `t`, whose first byte is at `p`. -/
inductive Covers : Nat → Text → List Token → Prop where
  | eof {p : Nat} {gap : Text} (hgap : IsGap .eof gap) :
      Covers p gap [⟨.eof, [], (p + gap.length : Nat)⟩]
  | token {p : Nat} {k : Kind} {gap read rest : Text} {ts : List Token} (hgap : IsGap k gap)
      (hk : k ≠ .eof) (hread : read ≠ []) (h : Covers (p + gap.length + read.length) rest ts) :
      Covers p (gap ++ (read ++ rest)) (⟨k, read, (p + gap.length : Nat)⟩ :: ts)

theorem isGap_nil (k : Kind) : IsGap k [] := ⟨[], [], rfl, .nil, Or.inl rfl⟩

theorem IsGap.continued {k : Kind} {line gap : Text} (hline : IsContinuation line)
    (h : IsGap k gap) : IsGap k (line ++ gap) := by
  obtain ⟨continued, comment, rfl, hcont, hcomment⟩ := h
  exact ⟨line ++ continued, comment, by rw [List.append_assoc], .cons hline hcont, hcomment⟩

theorem Covers.continued {p : Nat} {line t : Text} {ts : List Token}
    (hline : IsContinuation line) (h : Covers (p + line.length) t ts) :
    Covers p (line ++ t) ts := by
  cases h with
  | eof hgap =>
      have he := Covers.eof (p := p) (hgap.continued hline)
      rwa [List.length_append, ← Nat.add_assoc] at he
  | token hgap hk hread h =>
      have he := Covers.token (p := p) (hgap.continued hline) hk hread
        (by rwa [List.length_append, ← Nat.add_assoc])
      rwa [List.length_append, ← Nat.add_assoc, List.append_assoc] at he

/-- A comment belongs to the gap before the newline or the end that follows it at once. -/
theorem Covers.comment {p : Nat} {comment t : Text} {u : Token} {ts : List Token}
    (hcomment : IsComment comment) (hu : u.kind = .newline ∨ u.kind = .eof)
    (hoffset : u.offset = (p + comment.length : Nat))
    (h : Covers (p + comment.length) t (u :: ts)) : Covers p (comment ++ t) (u :: ts) := by
  have hgap : IsGap u.kind comment := ⟨[], comment, rfl, .nil, Or.inr ⟨hcomment, hu⟩⟩
  cases h with
  | eof =>
      obtain rfl : t = [] := List.length_eq_zero_iff.1 (by simp only at hoffset; omega)
      simpa using Covers.eof (p := p) hgap
  | @token _ k gap read rest _ _ hk hread h =>
      obtain rfl : gap = [] := List.length_eq_zero_iff.1 (by simp only at hoffset; omega)
      exact Covers.token (p := p) hgap hk hread h

theorem scanFrom_lineEnd {c : Context} {p : Nat} {t : Text} (h : atLineEnd t = true) :
    ∃ u ts, scanFrom c p t = u :: ts ∧ (u.kind = .newline ∨ u.kind = .eof) ∧ u.offset = p := by
  cases t with
  | nil => exact ⟨_, _, scanFrom_nil c p, Or.inr rfl, rfl⟩
  | cons b t =>
      obtain rfl := eq_of_beq h
      have hs : scanFrom c p ([Ascii.newline] ++ t) = _ := scanFrom_append (lexeme_newline c t)
      exact ⟨_, _, hs, Or.inl rfl, rfl⟩

theorem scanFrom_covers (c : Context) (p : Nat) (t : Text) : Covers p t (scanFrom c p t) := by
  induction c, p, t using scan_induction with
  | nil c p =>
      rw [scanFrom_nil]
      exact .eof (isGap_nil _)
  | step c p k read rest hread hl hsp ih =>
      rw [scanFrom_append hl]
      cases hsp with
      | continuation hline => exact ih.continued hline
      | comment hcomment hend =>
          obtain ⟨u, ts, hs, hu, hoffset⟩ := scanFrom_lineEnd hend
          rw [hs] at ih ⊢
          exact ih.comment hcomment hu hoffset
      | @rule k _ _ hk =>
          have hne : k ≠ .eof := by rcases hk with rfl | rfl <;> decide
          exact .token (isGap_nil k) hne hread ih
      | newline => exact .token (isGap_nil _) (by decide) hread ih
      | @inside k _ _ hk =>
          have hne : k ≠ .eof := by rintro rfl; cases hk
          exact .token (isGap_nil k) hne hread ih

/-! ## What covering a text says of its tokens -/

theorem Covers.last {p : Nat} {t : Text} {ts : List Token} (h : Covers p t ts) :
    ∃ us, ts = us ++ [⟨.eof, [], (p + t.length : Nat)⟩] ∧
      ∀ u ∈ us, u.kind ≠ .eof ∧ u.text ≠ [] := by
  induction h with
  | eof => exact ⟨[], rfl, by simp⟩
  | @token p k gap read rest ts hgap hk hread h ih =>
      obtain ⟨us, rfl, hus⟩ := ih
      have hlen : p + gap.length + read.length + rest.length =
          p + (gap ++ (read ++ rest)).length := by
        simp only [List.length_append]
        omega
      refine ⟨_ :: us, by rw [hlen]; rfl, ?_⟩
      intro u hu
      rcases List.mem_cons.1 hu with rfl | hu
      · exact ⟨hk, hread⟩
      · exact hus u hu

theorem Covers.offset_le {p : Nat} {t : Text} {ts : List Token} (h : Covers p t ts) :
    ∀ u ∈ ts, (p : Int) ≤ u.offset := by
  induction h with
  | eof =>
      intro u hu
      rw [List.mem_singleton.1 hu]
      simp only
      omega
  | token hgap hk hread h ih =>
      intro u hu
      rcases List.mem_cons.1 hu with rfl | hu
      · simp only
        omega
      · have hle := ih u hu
        omega

theorem Covers.ordered {p : Nat} {t : Text} {ts : List Token} (h : Covers p t ts) :
    ts.Pairwise fun u v => u.offset < v.offset ∧ u.stop ≤ v.offset := by
  induction h with
  | eof => exact List.pairwise_singleton _ _
  | @token p k gap read rest ts hgap hk hread h ih =>
      refine List.pairwise_cons.2 ⟨?_, ih⟩
      intro v hv
      have hle := h.offset_le v hv
      have hpos := List.length_pos_iff.2 hread
      simp only [stop]
      omega

theorem Covers.slices {before t : Text} {ts : List Token} (h : Covers before.length t ts) :
    ∀ u ∈ ts, u.stop ≤ (before ++ t).length ∧
      u.text = (before ++ t).between u.offset u.stop := by
  generalize hp : before.length = p at h
  induction h generalizing before with
  | @eof p gap hgap =>
      subst hp
      intro u hu
      rw [List.mem_singleton.1 hu]
      refine ⟨by simp [stop], ?_⟩
      rw [← List.length_append]
      simpa [stop] using (Text.between_append (before ++ gap) [] []).symm
  | @token p k gap read rest ts hgap hk hread h ih =>
      subst hp
      have hrest := @ih (before ++ gap ++ read) (by simp only [List.length_append])
      simp only [List.append_assoc] at hrest
      intro u hu
      rcases List.mem_cons.1 hu with rfl | hu
      · have hb := Text.between_append (before ++ gap) read rest
        rw [List.append_assoc, List.length_append] at hb
        refine ⟨?_, hb.symm⟩
        simp only [stop, List.length_append]
        omega
      · exact hrest u hu

theorem Covers.gaps {before t : Text} {ts : List Token} (h : Covers before.length t ts) :
    List.Forall₂ (fun gap u => IsGap u.kind gap)
        (gapsFrom (before ++ t) before.length ts) ts ∧
      (List.zipWith (fun gap u => gap ++ u.text)
        (gapsFrom (before ++ t) before.length ts) ts).flatten = t := by
  generalize hp : before.length = p at h
  induction h generalizing before with
  | @eof p gap hgap =>
      subst hp
      have hb := Text.between_append before gap []
      rw [List.append_nil] at hb
      simp only [gapsFrom, hb]
      exact ⟨.cons hgap .nil, by simp⟩
  | @token p k gap read rest ts hgap hk hread h ih =>
      subst hp
      obtain ⟨hgaps, hcat⟩ := @ih (before ++ gap ++ read) (by simp only [List.length_append])
      simp only [List.append_assoc] at hgaps hcat
      have hb := Text.between_append before gap (read ++ rest)
      simp only [gapsFrom, hb]
      refine ⟨.cons hgap hgaps, ?_⟩
      simp only [List.zipWith_cons_cons, List.flatten_cons, List.append_assoc]
      exact congrArg (gap ++ ·) (congrArg (read ++ ·) hcat)

end Token

/-- Scanning is lossless. The last token, and no other, is the empty one that marks the end. All
others are non-empty pieces of the text at their offsets. They follow each other without overlap,
and all that is left out before a token is a gap of its kind. -/
theorem tokenize_lossless (text : Text) :
    (∃ ts, tokenize text = ts ++ [⟨.eof, [], text.length⟩] ∧
      ∀ t ∈ ts, t.kind ≠ .eof ∧ t.text ≠ [] ∧ 0 ≤ t.offset ∧ t.stop ≤ (text.length : Int) ∧
        t.text = text.between t.offset t.stop) ∧
    (tokenize text).Pairwise (fun t u => t.offset < u.offset ∧ t.stop ≤ u.offset) ∧
    List.Forall₂ (fun gap t => Token.IsGap t.kind gap)
      (Token.gapsFrom text 0 (tokenize text)) (tokenize text) ∧
    (List.zipWith (fun gap t => gap ++ t.text)
      (Token.gapsFrom text 0 (tokenize text)) (tokenize text)).flatten = text := by
  have h : Token.Covers ([] : Text).length text (tokenize text) :=
    Token.scanFrom_covers ⟨true, false⟩ 0 text
  obtain ⟨ts, hts, hother⟩ := h.last
  refine ⟨⟨ts, by simpa using hts, ?_⟩, h.ordered, h.gaps⟩
  intro t ht
  have hmem : t ∈ tokenize text := by
    rw [hts]
    exact List.mem_append_left _ ht
  obtain ⟨hkind, htext⟩ := hother t ht
  exact ⟨hkind, htext, h.offset_le t hmem, h.slices t hmem⟩

end PoolProse
