import PoolProse.Proofs.Extent
import PoolProse.Proofs.Walk

/-!
# Places and lines

A place among tokens that end somewhere stands in a line, with lines below. Every look ahead from a
place finds what the lines say, and stays at or before the end of the document.
-/
namespace PoolProse

namespace Walk

variable {ts : List Token} {i j : Nat} {line : Line} {below : List Line}

/-! ## Places and lines -/

def firstEof (ts : List Token) : Nat := ts.findIdx fun t => t.kind == .eof

/-- From the place `i` on there is the rest `line` of a line, and `below` it. The place is not
behind the end of the document. -/
structure At (ts : List Token) (i : Nat) (line : Line) (below : List Line) : Prop where
  closed : firstEof ts < ts.length
  le : i ≤ firstEof ts
  lines : Line.split (ts.drop i) = line :: below

theorem exists_at (hend : firstEof ts < ts.length) (h : i ≤ firstEof ts) :
    ∃ line below, At ts i line below := by
  obtain ⟨line, below, hlines⟩ := List.exists_cons_of_ne_nil (Line.split_ne_nil (ts.drop i))
  exact ⟨line, below, hend, h, hlines⟩

theorem kind_firstEof (hend : firstEof ts < ts.length) :
    ∃ t, ts[firstEof ts]? = some t ∧ t.kind = .eof := by
  have h := List.findIdx_getElem (p := fun t : Token => t.kind == .eof) (w := hend)
  exact ⟨_, List.getElem?_eq_getElem hend, eq_of_beq h⟩

theorem kind_before_firstEof {t : Token} (h : i < firstEof ts) (ht : ts[i]? = some t) :
    t.kind ≠ .eof := by
  obtain ⟨hi, rfl⟩ := List.getElem?_eq_some_iff.1 ht
  have hnot := List.not_of_lt_findIdx h
  simpa using hnot

inductive At.Next (ts : List Token) (i : Nat) (t : Token) : Line → List Line → Prop where
  | inside {line : Line} {below : List Line} (heof : t.kind ≠ .eof) (hnewline : t.kind ≠ .newline)
      (h : At ts (i + 1) line below) : Next ts i t (t :: line) below
  | newline {line : Line} {below : List Line} (ht : t.kind = .newline)
      (h : At ts (i + 1) line below) : Next ts i t [] (line :: below)
  | eof (ht : t.kind = .eof) (hi : i = firstEof ts) : Next ts i t [] []

theorem At.next (h : At ts i line below) : ∃ t, ts[i]? = some t ∧ At.Next ts i t line below := by
  have hlt : i < ts.length := Nat.lt_of_le_of_lt h.le h.closed
  have hlines := h.lines
  rw [List.drop_eq_getElem_cons hlt] at hlines
  refine ⟨ts[i], List.getElem?_eq_getElem hlt, ?_⟩
  by_cases heof : ts[i].kind = .eof
  · simp only [Line.split, heof] at hlines
    obtain ⟨rfl, rfl⟩ := List.cons.inj hlines
    refine .eof heof ?_
    by_cases hbefore : i < firstEof ts
    · exact absurd heof (kind_before_firstEof hbefore (List.getElem?_eq_getElem hlt))
    · have := h.le
      omega
  · have hle : i + 1 ≤ firstEof ts := by
      have hne : i ≠ firstEof ts := by
        rintro rfl
        obtain ⟨t, ht, hk⟩ := kind_firstEof h.closed
        rw [List.getElem?_eq_getElem hlt] at ht
        exact heof (Option.some.inj ht ▸ hk)
      have := h.le
      omega
    obtain ⟨first, rest, hrest⟩ := List.exists_cons_of_ne_nil (Line.split_ne_nil (ts.drop (i + 1)))
    by_cases hnewline : ts[i].kind = .newline
    · rw [Line.split_cons_newline hnewline, hrest] at hlines
      obtain ⟨rfl, rfl⟩ := List.cons.inj hlines
      exact .newline hnewline ⟨h.closed, hle, hrest⟩
    · rw [Line.split_cons_inside heof hnewline hrest] at hlines
      obtain ⟨rfl, rfl⟩ := List.cons.inj hlines
      exact .inside heof hnewline ⟨h.closed, hle, hrest⟩

theorem At.cons {t : Token} (h : At ts i (t :: line) below) :
    ts[i]? = some t ∧ t.kind ≠ .eof ∧ t.kind ≠ .newline ∧ At ts (i + 1) line below := by
  obtain ⟨u, hu, hnext⟩ := h.next
  cases hnext with
  | inside heof hnewline h => exact ⟨hu, heof, hnewline, h⟩

/-! ## Scans -/

theorem scanWhile_of_token {p : Token → Bool} {t : Token} (ht : ts[i]? = some t) :
    scanWhile ts p i = if p t then scanWhile ts p (i + 1) else some i := by
  obtain ⟨hlt, rfl⟩ := List.getElem?_eq_some_iff.1 ht
  rw [scanWhile, dif_pos hlt]

theorem scanWhile_at {p : Token → Bool} (hp : ∀ t, t.kind = .newline ∨ t.kind = .eof → p t = false)
    (h : At ts i line below) :
    scanWhile ts p i = some (i + (line.takeWhile p).length) ∧
      At ts (i + (line.takeWhile p).length) (line.dropWhile p) below := by
  induction line generalizing i with
  | nil =>
      obtain ⟨t, ht, hnext⟩ := h.next
      have hpt : p t = false := by
        cases hnext with
        | newline hk => exact hp t (Or.inl hk)
        | eof hk => exact hp t (Or.inr hk)
      rw [scanWhile_of_token ht, hpt]
      exact ⟨rfl, h⟩
  | cons t line ih =>
      obtain ⟨ht, -, -, hrest⟩ := h.cons
      rw [scanWhile_of_token ht]
      cases hpt : p t with
      | false =>
          simp only [hpt, List.takeWhile_cons, List.dropWhile_cons]
          exact ⟨rfl, h⟩
      | true =>
          obtain ⟨hscan, hat⟩ := ih hrest
          simp only [hpt, if_true, List.takeWhile_cons, List.dropWhile_cons, List.length_cons,
            ← Nat.add_assoc, Nat.add_right_comm i _ 1]
          exact ⟨hscan, hat⟩

theorem isWhite_lineEnd (t : Token) (h : t.kind = .newline ∨ t.kind = .eof) :
    t.isWhite = false := by
  rcases h with hk | hk <;> simp [Token.isWhite, hk]

theorem skipWhite_at (h : At ts i line below) :
    ∃ j, skipWhite ts i = some j ∧ i ≤ j ∧ At ts j line.content below := by
  obtain ⟨hscan, hat⟩ := scanWhile_at isWhite_lineEnd h
  exact ⟨_, hscan, Nat.le_add_right _ _, hat⟩

theorem At.mem {t : Token} (h : At ts i line below) (ht : t ∈ line) :
    t.kind ≠ .newline ∧ t.kind ≠ .eof := by
  induction line generalizing i with
  | nil => cases ht
  | cons u line ih =>
      obtain ⟨-, heof, hnewline, hrest⟩ := h.cons
      rcases List.mem_cons.1 ht with rfl | ht
      · exact ⟨hnewline, heof⟩
      · exact ih hrest ht

theorem lineEnd_at (h : At ts i line below) :
    lineEnd ts i = some (i + line.length) ∧ At ts (i + line.length) [] below := by
  let p : Token → Bool := fun t => t.kind != .newline && t.kind != .eof
  have hends : ∀ t : Token, t.kind = .newline ∨ t.kind = .eof → p t = false := by
    rintro t (hk | hk) <;> simp [p, hk]
  have hline : ∀ t ∈ line, p t = true := by
    intro t ht
    obtain ⟨hnewline, heof⟩ := h.mem ht
    simp [p, hnewline, heof]
  have hscan := scanWhile_at hends h
  rwa [List.takeWhile_eq_self_iff.2 hline, List.dropWhile_eq_nil_iff.2 hline] at hscan

/-- The `lines` start at the place `i`, but for white space. Behind the last line nothing is left
but the end of the document. -/
inductive Stands (ts : List Token) : List Line → Nat → Prop where
  | line {i : Nat} {line rest : Line} {below : List Line} (h : At ts i rest below)
      (hcontent : rest.content = line.content) : Stands ts (line :: below) i
  | eof (hend : firstEof ts < ts.length) : Stands ts [] (firstEof ts)

theorem At.stands (h : At ts i line below) : Stands ts (line :: below) i := .line h rfl

theorem Stands.le {lines : List Line} (h : Stands ts lines i) :
    firstEof ts < ts.length ∧ i ≤ firstEof ts := by
  cases h with
  | line h => exact ⟨h.closed, h.le⟩
  | eof hend => exact ⟨hend, Nat.le_refl _⟩

theorem Stands.onward {α : Type} {a : Option α} {lines : List Line} (h : Stands ts lines j)
    (hlt : i < j) : Walk.onward ts i j (fun _ => a) = a := by
  obtain ⟨hend, hle⟩ := h.le
  exact dif_pos ⟨hlt, by omega⟩

theorem nextLine_at (h : At ts i line below) :
    ∃ k, nextLine ts i = some k ∧ i + line.length ≤ k ∧ Stands ts below k := by
  obtain ⟨hscan, hat⟩ := lineEnd_at h
  obtain ⟨t, ht, hnext⟩ := hat.next
  simp only [nextLine, hscan, Option.bind_eq_bind, Option.bind_some, ht]
  cases hnext with
  | newline hk hbelow =>
      rw [if_pos hk]
      exact ⟨_, rfl, Nat.le_succ _, hbelow.stands⟩
  | eof hk hi =>
      rw [if_neg (by simp [hk]), hi]
      exact ⟨_, rfl, Nat.le_refl _, .eof h.closed⟩

theorem At.drop_eq {us : Line} (h : At ts i (us ++ line) below) :
    ts.drop i = us ++ ts.drop (i + us.length) := by
  induction us generalizing i with
  | nil => rfl
  | cons u us ih =>
      obtain ⟨hu, -, -, hrest⟩ := At.cons h
      obtain ⟨hlt, rfl⟩ := List.getElem?_eq_some_iff.1 hu
      rw [List.drop_eq_getElem_cons hlt, ih hrest, List.length_cons, List.cons_append,
        Nat.add_right_comm i 1, Nat.add_assoc]

theorem At.slice {us : Line} (h : At ts i (us ++ line) below) :
    (ts.take (i + us.length)).drop i = us := by
  rw [List.drop_take, h.drop_eq, Nat.add_sub_cancel_left, List.take_left' rfl]

theorem nameAt_number {t : Token} {us : Line} (h : At ts i (t :: us) below)
    (hk : t.kind = .number) :
    ∃ name next rest, nameAt ts i = some (some (name, next)) ∧
      Line.poolName (t :: us) = some (name, rest) ∧ i < next ∧
      next + rest.length = i + (t :: us).length ∧ At ts next rest below := by
  obtain ⟨ht, -, -, hus⟩ := h.cons
  obtain ⟨hscan, hat⟩ := scanWhile_at isWhite_lineEnd hus
  change skipWhite ts (i + 1) = _ at hscan
  have halone : i + 1 + us.length = i + (t :: us).length := by
    rw [List.length_cons]
    omega
  cases hrest : us.dropWhile Token.isWhite with
  | nil =>
      rw [hrest] at hat
      obtain ⟨u, hu, hnext⟩ := hat.next
      have hname : u.kind ≠ .name := by
        cases hnext with
        | newline hk => simp [hk]
        | eof hk => simp [hk]
      exact ⟨t.text, i + 1, us, by simp [nameAt, ht, hk, hscan, hu, hname],
        by simp [Line.poolName, hk, hrest], by omega, halone, hus⟩
  | cons u vs =>
      rw [hrest] at hat
      obtain ⟨hu, -, -, hvs⟩ := hat.cons
      by_cases hname : u.kind = .name
      · have hline : t :: us = (t :: (us.takeWhile Token.isWhite ++ [u])) ++ vs := by
          rw [List.cons_append, List.append_assoc, List.singleton_append, ← hrest,
            List.takeWhile_append_dropWhile]
        have hplace : i + 1 + (us.takeWhile Token.isWhite).length + 1 =
            i + (t :: (us.takeWhile Token.isWhite ++ [u])).length := by
          simp only [List.length_cons, List.length_append, List.length_nil]
          omega
        have hslice := (hline ▸ h).slice
        refine ⟨t.text ++ (us.takeWhile Token.isWhite).flatMap Token.text ++ u.text, _, vs, ?_, ?_,
          by omega, ?_, hvs⟩
        · simp only [nameAt, ht, hk, hscan, hu, hname, Option.bind_eq_bind, Option.bind_some,
            if_true]
          rw [hplace, hslice]
          simp
        · simp [Line.poolName, hk, hrest, hname]
        · rw [hplace, hline, List.length_append, Nat.add_assoc]
      · exact ⟨t.text, i + 1, us, by simp [nameAt, ht, hk, hscan, hu, hname],
          by simp [Line.poolName, hk, hrest, hname], by omega, halone, hus⟩

theorem nameAt_at (h : At ts i line below) :
    (nameAt ts i = some none ∧ line.poolName = none) ∨
      ∃ name next rest, nameAt ts i = some (some (name, next)) ∧
        line.poolName = some (name, rest) ∧ i < next ∧ next + rest.length = i + line.length ∧
        At ts next rest below := by
  cases line with
  | nil =>
      obtain ⟨t, ht, hnext⟩ := h.next
      left
      cases hnext with
      | newline hk => simp [nameAt, ht, hk, Line.poolName]
      | eof hk => simp [nameAt, ht, hk, Line.poolName]
  | cons t us =>
      obtain ⟨ht, -, -, hus⟩ := h.cons
      by_cases hname : t.kind = .name
      · right
        refine ⟨t.text, i + 1, us, ?_, ?_, Nat.lt_succ_self i, ?_, hus⟩
        · simp [nameAt, ht, hname]
        · simp [Line.poolName, hname]
        · rw [List.length_cons]
          omega
      by_cases hnumber : t.kind = .number
      · exact Or.inr (nameAt_number h hnumber)
      · left
        simp [nameAt, ht, Line.poolName]

theorem content_eq_nil_iff (line : Line) : line.content = [] ↔ line.all Token.isWhite = true := by
  rw [Line.content, List.dropWhile_eq_nil_iff, List.all_eq_true]

/-- A title is found where the line has the shape of one. The double rule is passed on the way to
the body. -/
theorem isTitle_at (h : At ts i line below) :
    (isTitle ts i = some false ∧
        ∀ t us, line = t :: us → Line.shapeOfText t us below = .text (t :: us)) ∨
      ∃ t us name next k junk body, isTitle ts i = some true ∧ line = t :: us ∧
        Line.shapeOfText t us below = .title t name junk body ∧
        nameAt ts i = some (some (name, next)) ∧ skipWhite ts next = some k ∧ i < k ∧
        At ts (k + 2) junk body := by
  rcases nameAt_at h with ⟨hname, hpool⟩ | ⟨name, next, rest, hname, hpool, hlt, -, hrest⟩
  · left
    refine ⟨by simp [isTitle, hname], ?_⟩
    rintro t us rfl
    simp [Line.shapeOfText, hpool]
  obtain ⟨k, hskip, hle, hat⟩ := skipWhite_at hrest
  obtain ⟨v, hv, hnext⟩ := hat.next
  have hlook : isTitle ts i = if v.kind = .newline then
      ts[k + 1]?.bind fun u => some (u.kind == .doubleRule) else some false := by
    simp only [isTitle, hname, hskip, hv, Option.bind_eq_bind, Option.bind_some]
  rw [hlook]
  generalize hcontent : rest.content = content at hnext
  cases hnext with
  | inside _ hnewline =>
      left
      have hall : rest.all Token.isWhite = false := by
        rw [← Bool.not_eq_true, ← content_eq_nil_iff, hcontent]
        simp
      refine ⟨if_neg hnewline, ?_⟩
      rintro t us rfl
      simp only [Line.shapeOfText, hpool, hall, Bool.false_and]
      split <;> rfl
  | eof hk =>
      left
      refine ⟨if_neg (by simp [hk]), ?_⟩
      rintro t us rfl
      simp [Line.shapeOfText, hpool]
  | newline hk hbelow =>
      have hall : rest.all Token.isWhite = true := (content_eq_nil_iff rest).1 hcontent
      obtain ⟨u, hu, hnext⟩ := hbelow.next
      rw [if_pos hk, hu]
      cases hnext with
      | newline hk =>
          left
          refine ⟨by simp [hk], ?_⟩
          rintro t us rfl
          simp [Line.shapeOfText, hpool]
      | eof hk =>
          left
          refine ⟨by simp [hk], ?_⟩
          rintro t us rfl
          simp [Line.shapeOfText, hpool]
      | @inside junk _ _ _ hjunk =>
          by_cases hdouble : u.kind = .doubleRule
          · right
            cases line with
            | nil => cases hpool
            | cons t us =>
                refine ⟨t, us, name, next, k, junk, _, by simp [hdouble], rfl, ?_, hname, hskip,
                  by omega, hjunk⟩
                simp [Line.shapeOfText, hpool, hall, hdouble]
          · left
            refine ⟨by simp [hdouble], ?_⟩
            rintro t us rfl
            simp [Line.shapeOfText, hpool, hdouble]

/-! ## What is met at a place -/

def Ordinary (k : Token.Kind) : Prop :=
  k ≠ .eof ∧ k ≠ .newline ∧ k ≠ .rule ∧ k ≠ .doubleRule

/-- The first token behind white space, and with it the shape of the first line. -/
inductive Met (ts : List Token) (j : Nat) (t : Token) : List Line → Prop where
  | eof {lines : List Line} (hk : t.kind = .eof) (hj : j = firstEof ts)
      (hlines : lines = [] ∨ ∃ line, lines = [line] ∧ Line.shape line [] = .blank) :
      Met ts j t lines
  | newline {line : Line} {below : List Line} (hk : t.kind = .newline)
      (hs : Line.shape line below = .blank) (hbelow : Stands ts below (j + 1)) :
      Met ts j t (line :: below)
  | rule {line junk : Line} {below : List Line} (hk : t.kind = .rule)
      (hs : Line.shape line below = .rule junk) (hat : At ts j (t :: junk) below) :
      Met ts j t (line :: below)
  | doubleRule {line us : Line} {below : List Line} (hk : t.kind = .doubleRule)
      (hs : Line.shape line below = .doubleRule t) (hat : At ts j (t :: us) below) :
      Met ts j t (line :: below)
  | title {line us junk : Line} {below body : List Line} {name : Text} {next k : Nat}
      (hk : Ordinary t.kind) (hat : At ts j (t :: us) below) (htitle : isTitle ts j = some true)
      (hs : Line.shape line below = .title t name junk body)
      (hname : nameAt ts j = some (some (name, next))) (hskip : skipWhite ts next = some k)
      (hlt : j < k) (hjunk : At ts (k + 2) junk body) : Met ts j t (line :: below)
  | text {line us : Line} {below : List Line} (hk : Ordinary t.kind)
      (hat : At ts j (t :: us) below) (htitle : isTitle ts j = some false)
      (hs : Line.shape line below = .text (t :: us)) : Met ts j t (line :: below)

theorem skipWhite_firstEof (hend : firstEof ts < ts.length) :
    skipWhite ts (firstEof ts) = some (firstEof ts) := by
  obtain ⟨t, ht, hk⟩ := kind_firstEof hend
  rw [skipWhite, scanWhile_of_token ht]
  simp [Token.isWhite, hk]

theorem Stands.met {lines : List Line} (h : Stands ts lines i) :
    ∃ j t, skipWhite ts i = some j ∧ i ≤ j ∧ Stands ts lines j ∧ ts[j]? = some t ∧
      Met ts j t lines := by
  cases h with
  | eof hend =>
      obtain ⟨t, ht, hk⟩ := kind_firstEof hend
      exact ⟨_, t, skipWhite_firstEof hend, Nat.le_refl _, .eof hend, ht,
        .eof hk rfl (Or.inl rfl)⟩
  | @line _ line rest below hat hcontent =>
      obtain ⟨j, hskip, hle, hat⟩ := skipWhite_at hat
      rw [hcontent] at hat
      obtain ⟨t, ht, hnext⟩ := hat.next
      have hidem : line.content.content = line.content := List.dropWhile_idempotent _ _
      refine ⟨j, t, hskip, hle, .line hat hidem, ht, ?_⟩
      generalize hline : line.content = content at hnext hat
      cases hnext with
      | newline hk hbelow => exact .newline hk (by simp [Line.shape, hline]) hbelow.stands
      | eof hk hj => exact .eof hk hj (Or.inr ⟨line, rfl, by simp [Line.shape, hline]⟩)
      | @inside us _ heof hnewline _ =>
          by_cases hrule : t.kind = .rule
          · exact .rule hrule (by simp [Line.shape, hline, hrule]) hat
          by_cases hdouble : t.kind = .doubleRule
          · exact .doubleRule hdouble (by simp [Line.shape, hline, hdouble]) hat
          have hshape : Line.shape line below = Line.shapeOfText t us below := by
            simp [Line.shape, hline]
          rcases isTitle_at hat with ⟨htitle, htext⟩ | ⟨u, vs, name, next, k, junk, body, htitle,
            heq, htext, hname, hskip, hlt, hjunk⟩
          · exact .text ⟨heof, hnewline, hrule, hdouble⟩ hat htitle (hshape.trans (htext t us rfl))
          · obtain ⟨rfl, rfl⟩ := List.cons.inj heq
            exact .title ⟨heof, hnewline, hrule, hdouble⟩ hat htitle (hshape.trans htext) hname
              hskip hlt hjunk

/-! ## The walks over blocks -/

open Statement (afterBlocks)

theorem closes_at {lines : List Line} (h : Stands ts lines i) :
    closes ts i = some (Statement.closes lines) := by
  induction lines generalizing i with
  | nil =>
      obtain ⟨j, t, hskip, -, -, ht, hmet⟩ := h.met
      rw [closes, hskip]
      simp only [Option.bind_eq_bind, Option.bind_some, ht]
      cases hmet with
      | eof hk => simp [hk, Statement.closes]
  | cons line below ih =>
      obtain ⟨j, t, hskip, hle, -, ht, hmet⟩ := h.met
      rw [closes, hskip]
      simp only [Option.bind_eq_bind, Option.bind_some, ht]
      cases hmet with
      | eof hk hj hlines =>
          obtain ⟨rfl, hs⟩ : below = [] ∧ Line.shape line [] = .blank := by simpa using hlines
          simp [hk, Statement.closes, hs]
      | newline hk hs hbelow =>
          simp only [hk, hbelow.onward (Nat.lt_succ_of_le hle), Statement.closes, hs, ih hbelow]
      | rule hk hs => simp [hk, Statement.closes, hs]
      | doubleRule hk hs => simp [hk, Statement.closes, hs]
      | title hk hat htitle hs =>
          obtain ⟨heof, hnewline, hrule, hdouble⟩ := hk
          simp [htitle, Statement.closes, hs]
      | text hk hat htitle hs =>
          obtain ⟨hend, hat'⟩ := lineEnd_at hat
          obtain ⟨u, hu, hnext⟩ := hat'.next
          obtain ⟨heof, hnewline, hrule, hdouble⟩ := hk
          simp only [Statement.closes, hs, htitle, hend, Option.bind_some, hu]
          cases hnext with
          | newline hku hbelow =>
              rw [hbelow.stands.onward (by omega)]
              simpa [hku] using ih hbelow.stands
          | eof hku => simp [hku, Statement.closes]

theorem blockAhead_at {lines : List Line} (h : Stands ts lines i) :
    blockAhead ts i = some (Statement.blockAhead lines) := by
  obtain ⟨j, t, hskip, -, hj, ht, hmet⟩ := h.met
  have hcloses := closes_at hj
  simp only [blockAhead, hskip, Option.bind_eq_bind, Option.bind_some, ht]
  cases hmet with
  | eof hk _ hlines =>
      rcases hlines with rfl | ⟨line, rfl, hs⟩
      · simp [hk, Statement.blockAhead]
      · simp [hk, Statement.blockAhead, hs]
  | newline hk hs => simp [hk, Statement.blockAhead, hs]
  | rule hk hs => simp [hk, Statement.blockAhead, hs, hcloses]
  | doubleRule hk hs => simp [hk, Statement.blockAhead, hs, hcloses]
  | title hk _ _ hs =>
      obtain ⟨heof, hnewline, -, -⟩ := hk
      simp [Statement.blockAhead, hs, hcloses]
  | text hk _ _ hs =>
      obtain ⟨heof, hnewline, -, -⟩ := hk
      simp [Statement.blockAhead, hs, hcloses]

theorem isTitle_of_kind {t : Token} (ht : ts[i]? = some t) (hname : t.kind ≠ .name)
    (hnumber : t.kind ≠ .number) : isTitle ts i = some false := by
  simp [isTitle, nameAt, ht]

theorem nextLine_newline {t : Token} (ht : ts[i]? = some t) (hk : t.kind = .newline) :
    nextLine ts i = some (i + 1) := by
  have hend : lineEnd ts i = some i := by
    rw [lineEnd, scanWhile_of_token ht]
    simp [hk]
  simp [nextLine, hend, ht, hk]

theorem blockEnd_at {lines : List Line} (h : Stands ts lines i) :
    ∃ k, blockEnd ts i = some k ∧ i ≤ k ∧ Stands ts (afterBlocks lines) k := by
  induction lines generalizing i with
  | nil =>
      obtain ⟨j, t, hskip, hle, hj, ht, hmet⟩ := h.met
      cases hmet with
      | eof hk =>
          refine ⟨j, ?_, hle, hj⟩
          rw [blockEnd, hskip]
          simp [ht, hk]
  | cons line below ih =>
      obtain ⟨j, t, hskip, hle, hj, ht, hmet⟩ := h.met
      rw [blockEnd, hskip]
      simp only [Option.bind_eq_bind, Option.bind_some, ht]
      unfold afterBlocks
      cases hmet with
      | eof hk hplace hlines =>
          obtain ⟨rfl, hs⟩ : below = [] ∧ Line.shape line [] = .blank := by simpa using hlines
          refine ⟨j, by simp [hk], hle, ?_⟩
          simp only [hs, afterBlocks]
          rw [hplace]
          exact .eof hj.le.1
      | newline hk hs hbelow =>
          obtain ⟨k, hend, hle', hstands⟩ := ih hbelow
          have htitle := isTitle_of_kind ht (by simp [hk]) (by simp [hk])
          simp only [hk, htitle, nextLine_newline ht hk, hs, Option.bind_some,
            hbelow.onward (Nat.lt_succ_of_le hle)]
          exact ⟨k, by simpa using hend, by omega, hstands⟩
      | rule hk hs hat =>
          obtain ⟨k, hnext, hle', hstands⟩ := nextLine_at hat
          have htitle := isTitle_of_kind ht (by simp [hk]) (by simp [hk])
          rw [List.length_cons] at hle'
          simp only [hk, htitle, hnext, hs, Option.bind_some, blockAhead_at hstands,
            hstands.onward (show i < k by omega)]
          by_cases hahead : Statement.blockAhead below = true
          · obtain ⟨l, hend, hle'', hrest⟩ := ih hstands
            simp only [hahead]
            exact ⟨l, by simpa using hend, by omega, hrest⟩
          · simp only [hahead]
            exact ⟨k, by simp, by omega, hstands⟩
      | doubleRule hk hs =>
          refine ⟨j, by simp [hk], hle, ?_⟩
          simpa only [hs] using hj
      | title hk _ htitle hs =>
          obtain ⟨heof, -, -, hdouble⟩ := hk
          refine ⟨j, by simp [htitle], hle, ?_⟩
          simpa only [hs] using hj
      | text hk hat htitle hs =>
          obtain ⟨heof, -, hrule, hdouble⟩ := hk
          obtain ⟨k, hnext, hle', hstands⟩ := nextLine_at hat
          obtain ⟨l, hend, hle'', hrest⟩ := ih hstands
          rw [List.length_cons] at hle'
          simp only [htitle, hnext, hs, Option.bind_some, hstands.onward (show i < k by omega)]
          exact ⟨l, by simpa [hrule] using hend, by omega, hrest⟩

end Walk

end PoolProse
