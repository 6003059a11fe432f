import PoolProse.Proofs.Legible

/-!
# Reading keeps the text

An expression that was read says what its tokens say, in the same order and nothing else. Escapes
are decoded, and white space is left out only at the two ends of a line of free text or of an item,
which lie outside of all groups.
-/
namespace PoolProse

namespace Expr

/-- The text of an expression, with the brackets of its groups. -/
def flat : Expr → Text
  | .lit t => t
  | .mix l r => flat l ++ flat r
  | .ref e => Ascii.parenOpen :: (flat e ++ [Ascii.parenClose])
  | .draw e => Ascii.braceOpen :: (flat e ++ [Ascii.braceClose])
  | .bind .. => []
  | .missing => []

theorem flat_group (b : Bracket) (e : Expr) :
    flat (group b e) = b.opener :: (flat e ++ [b.closer]) := by
  cases b <;> rfl

theorem spells_flat : Spells (· ++ ·) flat where
  assoc := List.append_assoc
  empty_op _ := rfl
  op_empty := List.append_nil
  lit _ _ := rfl
  mix _ _ := rfl

theorem flat_concat (es : List Expr) : flat (concat es) = es.flatMap flat := by
  rw [spells_flat.concat, row_append_eq_flatMap rfl]

end Expr

namespace Token

/-- What a token says: an escape is decoded, and any other token says its text. -/
def decoded (t : Token) : Text :=
  if t.kind = .escape then decodeEscape t.text else t.text

theorem decoded_of_literal? {t : Token} {s : Text} (h : t.literal? = some s) : t.decoded = s := by
  unfold literal? at h
  unfold decoded
  cases hk : t.kind <;> simp_all

theorem Formed.decoded_opening {t : Token} {b : Bracket} {rest : Text} (hk : t.kind = .opening b)
    (h : Formed t.kind t.text rest) : t.decoded = [b.opener] := by
  rw [decoded, if_neg (by simp [hk])]
  generalize t.text = read at h
  rw [hk] at h
  cases h
  rfl

theorem Formed.decoded_closing {t : Token} {b : Bracket} {rest : Text} (hk : t.kind = .closing b)
    (h : Formed t.kind t.text rest) : t.decoded = [b.closer] := by
  rw [decoded, if_neg (by simp [hk])]
  generalize t.text = read at h
  rw [hk] at h
  cases h
  rfl

end Token

namespace Line

open Token (Formed)

/-- What the tokens say one after the other, less the white space at both ends. -/
def decoded (ts : List Token) : Text := (trim ts).flatMap Token.decoded

def barred (ts : List Token) : List (List Token) := ts.splitOnP fun t => t.kind == .pipe

theorem Segments.flat {ts : List Token} {es : List Expr} (h : Segments ts es)
    (hform : ∀ t ∈ ts, ∃ rest, Formed t.kind t.text rest) :
    es.flatMap Expr.flat = ts.flatMap Token.decoded := by
  induction h with
  | nil => rfl
  | @text t s ts es ht _ ih =>
      obtain ⟨-, hform⟩ := List.forall_mem_cons.1 hform
      rw [List.flatMap_cons, List.flatMap_cons, ih hform, Expr.flat,
        Token.decoded_of_literal? ht]
  | @group o c b inner ts es fs ho hc _ _ ihinner ih =>
      obtain ⟨_, hopen⟩ := hform o (by simp)
      obtain ⟨_, hclose⟩ := hform c (by simp)
      have hinner := ihinner fun t ht => hform t (by simp [ht])
      have hrest := ih fun t ht => hform t (by simp [ht])
      calc
        (Expr.group b (.concat es) :: fs).flatMap Expr.flat =
            b.opener :: (es.flatMap Expr.flat ++ [b.closer]) ++ fs.flatMap Expr.flat := by
          rw [List.flatMap_cons, Expr.flat_group, Expr.flat_concat]
        _ = (o :: (inner ++ c :: ts)).flatMap Token.decoded := by
          simp [hinner, hrest, hopen.decoded_opening ho, hclose.decoded_closing hc]

theorem mem_of_mem_trim {ts : List Token} {t : Token} (h : t ∈ trim ts) : t ∈ ts := by
  obtain ⟨before, after, hcat, -⟩ := trim_cases ts
  rw [hcat]
  simp [h]

theorem IsText.flat {ts : List Token} {e : Expr} (h : IsText ts e)
    (hform : ∀ t ∈ ts, ∃ rest, Formed t.kind t.text rest) : e.flat = decoded ts := by
  obtain ⟨es, hes, rfl⟩ := h
  rw [Expr.flat_concat]
  exact hes.flat fun t ht => hform t (mem_of_mem_trim ht)

/-- No bar stands inside an item, so bars cut a row of items into the items. -/
theorem IsItems.flat {ts : List Token} {es : List Expr} (h : IsItems ts es)
    (hform : ∀ t ∈ ts, ∃ rest, Formed t.kind t.text rest) :
    es.map Expr.flat = (barred ts).map decoded := by
  have hbar : ∀ {us : List Token} {e : Expr}, IsText us e →
      ∀ t ∈ us, (t.kind == .pipe) = false := by
    intro us e hus t ht
    exact beq_false_of_ne (hus.kinds t ht).1
  induction h with
  | @last ts e h =>
      rw [barred, List.splitOnP_eq_singleton (hbar h)]
      simp [h.flat hform]
  | @more ts us p e es h hp hrest ih =>
      have hcut : barred (ts ++ p :: us) = ts :: barred us :=
        List.splitOnP_append_cons_of_forall_mem (hbar h) p (by simp [hp]) us
      rw [hcut, List.map_cons, List.map_cons, h.flat fun t ht => hform t (by simp [ht]),
        ih fun t ht => hform t (by simp [ht])]

theorem isItems_of_itemList {ts : List Token} {es : List Expr}
    (hin : ∀ t ∈ ts, t.kind.isInside = true) (htext : ∀ t ∈ ts, t.text ≠ [])
    (h : itemList ts = .ok es) : IsItems ts es := by
  cases hv : verdict true [] ts with
  | some f =>
      rw [itemList_of_verdict hin hv] at h
      cases h
  | none =>
      obtain ⟨fs, hfs⟩ := isItems_of_verdict hin hv
      rw [itemList_of_isItems hfs htext] at h
      obtain rfl := Except.ok.inj h
      exact hfs

theorem Scanned.inside {line ts : Line} (h : line.Scanned) (hts : ts <:+: line)
    (hread : (∃ e, freeText ts = .ok e) ∨ ∃ es, itemList ts = .ok es) :
    ∀ t ∈ ts, t.kind.isInside = true := by
  rcases h.tidy with hin | ⟨r, rfl, hr⟩
  · exact fun t ht => hin t (hts.subset ht)
  · have hrefused : ∀ items, scan items [] {} [] [r] = .error ⟨.unexpectedToken, r⟩ := by
      intro items
      rcases hr with hr | hr <;> simp only [scan, hr]
    rcases (List.infix_singleton_iff _ _).1 hts with rfl | rfl
    · simp
    · rcases hread with ⟨e, he⟩ | ⟨es, hes⟩
      · rw [freeText, hrefused] at he
        cases he
      · rw [itemList, hrefused] at hes
        cases hes

/-- Reading keeps the text. Let `ts` be any stretch of a line: all of it, what follows a binding
operator, or a single item. What is read of it as free text says what its tokens say, and of the
items that are read from it each says what the tokens between its bars say. -/
theorem flat_eq_decoded {text : Text} {line ts : Line} (hline : line ∈ ofText text)
    (hts : ts <:+: line) :
    (∀ e, freeText ts = .ok e → e.flat = decoded ts) ∧
      ∀ es, itemList ts = .ok es → es.map Expr.flat = (barred ts).map decoded := by
  rw [← split_tokenize] at hline
  have hscanned := scanned_of_mem_split hline
  have hform : (∀ t ∈ ts, t.kind.isInside = true) →
      ∀ t ∈ ts, ∃ rest, Formed t.kind t.text rest :=
    fun hin t ht => hscanned.formed t (hts.subset ht) (hin t ht)
  have htext : (∀ t ∈ ts, ∃ rest, Formed t.kind t.text rest) → ∀ t ∈ ts, t.text ≠ [] := by
    intro hform t ht
    obtain ⟨rest, h⟩ := hform t ht
    exact h.ne_nil
  constructor
  · intro e he
    have hin := hscanned.inside hts (Or.inl ⟨e, he⟩)
    exact (isText_of_freeText hin (htext (hform hin)) he).flat (hform hin)
  · intro es hes
    have hin := hscanned.inside hts (Or.inr ⟨es, hes⟩)
    exact (isItems_of_itemList hin (htext (hform hin)) hes).flat (hform hin)

/-- White space stays inside the group and before it, and goes at the ends of both items. -/
theorem flat_eq_decoded_pet :
    ∃ line ts es, line ∈ ofText (utf8 "pet :: \\n ( a ) \\\n| b\\| ") ∧ ts <:+: line ∧
      itemList ts = .ok es ∧ es.map Expr.flat = (barred ts).map decoded ∧
      (barred ts).map decoded = [utf8 "\n ( a )", utf8 "b|"] := by
  let name : Token := ⟨.name, utf8 "pet", 0⟩
  let op : Token := ⟨.binding .define, utf8 " :: ", 3⟩
  let ts : Line := [⟨.escape, utf8 "\\n", 7⟩, ⟨.white, utf8 " ", 9⟩,
    ⟨.opening .paren, utf8 "(", 10⟩, ⟨.white, utf8 " ", 11⟩, ⟨.name, utf8 "a", 12⟩,
    ⟨.white, utf8 " ", 13⟩,
    ⟨.closing .paren, utf8 ")", 14⟩, ⟨.white, utf8 " ", 15⟩, ⟨.pipe, utf8 "| ", 18⟩,
    ⟨.name, utf8 "b", 20⟩, ⟨.escape, utf8 "\\|", 21⟩, ⟨.white, utf8 " ", 23⟩]
  have hline : [name, op] ++ ts ∈ ofText (utf8 "pet :: \\n ( a ) \\\n| b\\| ") := by
    decide +kernel
  have hts : ts <:+: [name, op] ++ ts := (List.suffix_append _ ts).isInfix
  obtain ⟨es, hes⟩ : ∃ es, itemList ts = .ok es := ⟨_, rfl⟩
  exact ⟨_, ts, es, hline, hts, hes, (flat_eq_decoded hline hts).2 es hes, by decide +kernel⟩

end Line

end PoolProse
