import PoolProse.Proofs.WalkLines

/-!
# Reading by places is reading by lines

A statement that is read from a place is the one that the lines from there on have, and the next one
is read from where the lines below it start. So reading by places never leaves the tokens and comes
to an end, whatever the tokens are.
-/
namespace PoolProse

namespace Walk

variable {ts : List Token} {i j : Nat} {line : Line} {below : List Line}

/-! ## Text and items -/

/-- The stack that the scan of a line keeps while text is read inside `opener`: that group is on top
of it. Outside of all groups the stack is empty, and a bar ends an item for both or for neither. -/
inductive Stacked : Option (Token × Bracket) → (items items' : Bool) → List Line.Enclosing → Prop
    where
  | outside {items : Bool} : Stacked none items items []
  | inside {o : Token} {b : Bracket} {outer : Line.Level} {stack : List Line.Enclosing}
      {items items' : Bool} : Stacked (some (o, b)) items items' (⟨o, b, outer⟩ :: stack)

/-- Reading text inside `opener` stops at `rest`. `scan` is what the scan of the whole line makes of
it, when the items before and the stack are given. -/
inductive Stops (items : Bool) (rest : Line)
    (scan : Bool → List Expr → List Line.Enclosing → Except SyntaxError (List Expr × Expr)) :
    Option (Token × Bracket) → Except SyntaxError (List Expr) → Prop where
  | error {opener : Option (Token × Bracket)} {e : SyntaxError}
      (h : ∀ items' done stack, Stacked opener items items' stack →
        scan items' done stack = .error e) : Stops items rest scan opener (.error e)
  /-- The group becomes a part of the level around it. -/
  | closing {es : List Expr} {o c : Token} {b : Bracket} {us : Line} (hrest : rest = c :: us)
      (h : ∀ items' done outer stack, scan items' done (⟨o, b, outer⟩ :: stack) =
        Line.scan items' done (outer.push (.group b (.concat es))) stack us) :
      Stops items rest scan (some (o, b)) (.ok es)
  | lineEnd {es : List Expr} (hrest : rest = [])
      (h : ∀ done, scan items done [] = .ok (done, .concat es)) :
      Stops items rest scan none (.ok es)
  | bar {es : List Expr} {p : Token} {us : Line} (hitems : items = true) (hrest : rest = p :: us)
      (hp : p.kind = .pipe)
      (h : ∀ done, scan items done [] = Line.scan true (done ++ [.concat es]) {} [] us) :
      Stops items rest scan none (.ok es)
  | junk {es : List Expr} {t : Token} {us : Line} (hrest : rest = t :: us) (ht : t.kind ≠ .pipe)
      (h : ∀ done, scan items done [] = .error ⟨.unexpectedToken, t⟩) :
      Stops items rest scan none (.ok es)

theorem Stops.congr {opener : Option (Token × Bracket)} {items : Bool} {rest : Line}
    {scan scan' : Bool → List Expr → List Line.Enclosing → Except SyntaxError (List Expr × Expr)}
    {r : Except SyntaxError (List Expr)} (h : Stops items rest scan' opener r)
    (hscan : ∀ items' done stack, Stacked opener items items' stack →
      scan items' done stack = scan' items' done stack) :
    Stops items rest scan opener r := by
  cases h with
  | error h =>
      exact .error fun _ done stack hs => (hscan _ done stack hs).trans (h _ done stack hs)
  | closing hrest h =>
      exact .closing hrest fun _ done _ _ => (hscan _ done _ .inside).trans (h _ done _ _)
  | lineEnd hrest h => exact .lineEnd hrest fun done => (hscan _ done _ .outside).trans (h done)
  | bar hitems hrest hp h =>
      exact .bar hitems hrest hp fun done => (hscan _ done _ .outside).trans (h done)
  | junk hrest ht h => exact .junk hrest ht fun done => (hscan _ done _ .outside).trans (h done)

theorem Stacked.isEmpty {opener : Option (Token × Bracket)} {items items' : Bool}
    {stack : List Line.Enclosing} (h : Stacked opener items items' stack) :
    stack.isEmpty = opener.isNone := by
  cases h <;> rfl

theorem segments_nil (opener : Option (Token × Bracket)) (items : Bool) (level : Line.Level)
    (h : At ts i [] below) :
    ∃ r, segments ts opener items level i = some (r, i) ∧
      Stops items [] (fun items' done stack => Line.scan items' done level stack []) opener r := by
  obtain ⟨t, ht, hnext⟩ := h.next
  obtain ⟨hlt, hget⟩ := List.getElem?_eq_some_iff.1 ht
  have hkind : t.kind = .newline ∨ t.kind = .eof := by
    cases hnext with
    | newline hk => exact Or.inl hk
    | eof hk => exact Or.inr hk
  rw [segments.eq_def, dif_pos hlt, hget]
  rcases opener with _ | ⟨o, b⟩
  · refine ⟨.ok level.flush.segments, ?_, .lineEnd rfl fun _ => rfl⟩
    rcases hkind with hk | hk <;> simp only [hk]
  · refine ⟨.error ⟨.unmatchedGroup, o⟩, ?_, .error ?_⟩
    · rcases hkind with hk | hk <;> simp only [hk]
    · rintro _ _ _ ⟨⟩
      rfl

theorem segments_cons {t : Token} {us : Line} (opener : Option (Token × Bracket)) (items : Bool)
    (level : Line.Level) (h : At ts i (t :: us) below)
    (htext : t.kind ≠ .white ∧ t.kind ≠ .name ∧ t.kind ≠ .number ∧ t.kind ≠ .escape)
    (hopening : ∀ b, t.kind ≠ .opening b) :
    ∃ r, segments ts opener items level i = some (r, i) ∧
      Stops items (t :: us) (fun items' done stack => Line.scan items' done level stack (t :: us))
        opener r := by
  obtain ⟨ht, heof, hnewline, -⟩ := h.cons
  obtain ⟨hwhite, hname, hnumber, hescape⟩ := htext
  obtain ⟨hlt, hget⟩ := List.getElem?_eq_some_iff.1 ht
  rw [segments.eq_def, dif_pos hlt, hget]
  simp only [Line.scan]
  cases hk : t.kind with
  | eof => exact absurd hk heof
  | newline => exact absurd hk hnewline
  | white => exact absurd hk hwhite
  | name => exact absurd hk hname
  | number => exact absurd hk hnumber
  | escape => exact absurd hk hescape
  | opening b => exact absurd hk (hopening b)
  | closing b =>
      rcases opener with _ | ⟨o, b'⟩
      · refine ⟨_, rfl, .error ?_⟩
        rintro _ _ _ ⟨⟩
        rfl
      · by_cases hb : b' = b
        · subst hb
          refine ⟨_, if_pos rfl, .closing rfl ?_⟩
          intro items' done outer stack
          exact if_pos rfl
        · refine ⟨_, if_neg (by simpa using hb), .error ?_⟩
          rintro _ _ _ ⟨⟩
          exact if_neg hb
  | pipe =>
      by_cases hbar : (items && opener.isNone) = true
      · obtain ⟨rfl, hopener⟩ := Bool.and_eq_true_iff.1 hbar
        obtain rfl := Option.isNone_iff_eq_none.1 hopener
        exact ⟨_, rfl, .bar rfl rfl hk fun done => rfl⟩
      · refine ⟨_, if_neg hbar, .error fun items' done stack hs => ?_⟩
        cases hs with
        | outside => exact if_neg hbar
        | inside => simp
  | binding op => exact ⟨_, rfl, .error fun _ _ _ _ => rfl⟩
  | _ =>
      -- a rule or a token of no known kind, where the line should have ended
      rcases opener with _ | ⟨o, b⟩
      · exact ⟨_, rfl, .junk rfl (by simp [hk]) fun _ => rfl⟩
      · refine ⟨_, rfl, .error ?_⟩
        rintro _ _ _ ⟨⟩
        rfl

/-- The descent into groups reads what the scan with a stack does. -/
theorem segments_at (opener : Option (Token × Bracket)) (items : Bool) (level : Line.Level)
    (h : At ts i line below) :
    ∃ r k rest, segments ts opener items level i = some (r, k) ∧ At ts k rest below ∧ i ≤ k ∧
      k + rest.length = i + line.length ∧
      Stops items rest (fun items' done stack => Line.scan items' done level stack line)
        opener r := by
  -- on the length of the line: a group takes up part of it, and reading goes on behind the group
  induction hn : line.length using Nat.strongRecOn generalizing i line opener items level with
  | ind n ih =>
      subst hn
      cases line with
      | nil =>
          obtain ⟨r, hread, hstops⟩ := segments_nil opener items level h
          exact ⟨r, i, [], hread, h, Nat.le_refl i, rfl, hstops⟩
      | cons t us =>
          obtain ⟨ht, heof, hnewline, hus⟩ := h.cons
          obtain ⟨hlt, hget⟩ := List.getElem?_eq_some_iff.1 ht
          -- reading goes on behind the token, and the scan takes the same step
          have hon : ∀ level' : Line.Level,
              (∀ items' done stack, Stacked opener items items' stack →
                Line.scan items' done level stack (t :: us) =
                  Line.scan items' done level' stack us) →
              ∃ r k rest, segments ts opener items level' (i + 1) = some (r, k) ∧
                At ts k rest below ∧ i ≤ k ∧ k + rest.length = i + (t :: us).length ∧
                Stops items rest
                  (fun items' done stack => Line.scan items' done level stack (t :: us))
                  opener r := by
            intro level' hscan
            obtain ⟨r, k, rest, hread, hat, hle, hstop, hstops⟩ :=
              ih us.length (by simp) opener items level' hus rfl
            exact ⟨r, k, rest, hread, hat, by omega, by rw [List.length_cons]; omega,
              hstops.congr hscan⟩
          cases hk : t.kind with
          | white | name | number | escape =>
              rw [segments.eq_def, dif_pos hlt, hget]
              simp only [hk]
              exact hon _ fun _ _ _ hs => by simp only [Line.scan, hk, hs.isEmpty]
          | opening b =>
              obtain ⟨r, j, rest, hread, hat, hle, hstop, hstops⟩ :=
                ih us.length (by simp) (some (t, b)) false {} hus rfl
              rw [segments.eq_def, dif_pos hlt, hget]
              simp only [hk, group, hread]
              cases hstops with
              | error hscan =>
                  refine ⟨_, j, rest, rfl, hat, by omega, by rw [List.length_cons]; omega,
                    .error fun items' done stack hs => ?_⟩
                  simp only [Line.scan, hk]
                  exact hscan items' done _ .inside
              | @closing es _ c _ us' hrest hscan =>
                  subst hrest
                  obtain ⟨-, -, -, hus'⟩ := hat.cons
                  rw [List.length_cons] at hstop
                  obtain ⟨r, k, rest', hread', hat', hle', hstop', hstops'⟩ :=
                    ih us'.length (by rw [List.length_cons]; omega) opener items
                      ((level.write opener.isNone []).flush.push (.group b (.concat es))) hus' rfl
                  simp only [hus'.stands.onward (show i < j + 1 by omega), hread']
                  refine ⟨r, k, rest', rfl, hat', by omega, by rw [List.length_cons]; omega,
                    hstops'.congr fun items' done stack hs => ?_⟩
                  simp only [Line.scan, hk, hs.isEmpty]
                  exact hscan items' done _ stack
          | _ =>
              obtain ⟨r, hread, hstops⟩ :=
                segments_cons opener items level h (by simp [hk]) (by simp [hk])
              exact ⟨r, i, _, hread, h, Nat.le_refl i, rfl, hstops⟩

/-- A line whose end is at `stop` was read and passed, or it was given up at a place in it. -/
inductive Finished (ts : List Token) (stop : Nat) (below : List Line) {α : Type} :
    Except SyntaxError α → Nat → Prop where
  | ok {a : α} {k : Nat} (hle : stop ≤ k) (h : Stands ts below k) : Finished ts stop below (.ok a) k
  | error {e : SyntaxError} {k : Nat} {rest : Line} (hstop : k + rest.length = stop)
      (h : At ts k rest below) : Finished ts stop below (.error e) k

theorem endLine_nil {α : Type} (a : α) (h : At ts i [] below) :
    ∃ k, endLine ts (.ok a, i) = some (.ok a, k) ∧ i ≤ k ∧ Stands ts below k := by
  obtain ⟨t, ht, hnext⟩ := h.next
  simp only [endLine, ht, Option.bind_eq_bind, Option.bind_some]
  cases hnext with
  | newline hk hbelow => exact ⟨i + 1, by simp [hk], by omega, hbelow.stands⟩
  | eof hk hi =>
      refine ⟨i, by simp [hk], Nat.le_refl i, ?_⟩
      rw [hi]
      exact .eof h.closed

theorem endLine_cons {α : Type} (a : α) {t : Token} {us : Line} (h : At ts i (t :: us) below) :
    endLine ts (.ok a, i) = some (.error ⟨.unexpectedToken, t⟩, i) := by
  obtain ⟨ht, heof, hnewline, -⟩ := h.cons
  simp [endLine, ht]

theorem freeText_at (h : At ts i line below) :
    ∃ k, freeText ts i = some (Line.freeText line, k) ∧
      Finished ts (i + line.length) below (Line.freeText line) k := by
  obtain ⟨r, k, rest, hread, hat, -, hstop, hstops⟩ :=
    segments_at none false {} h
  simp only [freeText, mix, hread, Option.bind_eq_bind, Option.bind_some, Line.freeText]
  cases hstops with
  | error hscan =>
      rw [hscan false [] [] .outside]
      exact ⟨k, rfl, .error hstop hat⟩
  | @lineEnd es hrest hscan =>
      subst hrest
      obtain ⟨l, hend, hle, hstands⟩ := endLine_nil (Expr.concat es) hat
      rw [hscan []]
      exact ⟨l, hend, .ok (by simpa [← hstop] using hle) hstands⟩
  | bar hitems => cases hitems
  | @junk es _ _ hrest _ hscan =>
      subst hrest
      rw [hscan []]
      exact ⟨k, endLine_cons (Expr.concat es) hat, .error hstop hat⟩

theorem itemList_at {α : Type} (f : List Expr → α) (done : List Expr) (h : At ts i line below) :
    ∃ k, (itemList ts done i).bind (fun r => endLine ts (r.1.map f, r.2)) =
        some ((Line.scan true done {} [] line).map fun r => f (r.1 ++ [r.2]), k) ∧
      Finished ts (i + line.length) below
        ((Line.scan true done {} [] line).map fun r => f (r.1 ++ [r.2])) k := by
  induction hn : line.length using Nat.strongRecOn generalizing line i done with
  | ind n ih =>
      obtain ⟨r, k, rest, hread, hat, hle, hstop, hstops⟩ :=
        segments_at none true {} h
      obtain ⟨t, ht, hnext⟩ := hat.next
      rw [hn] at hstop
      rw [itemList]
      simp only [mix, hread, Option.bind_eq_bind, Option.bind_some]
      cases hstops with
      | error hscan =>
          rw [hscan true done [] .outside]
          exact ⟨k, rfl, .error hstop hat⟩
      | @lineEnd es hrest hscan =>
          subst hrest
          have hbar : t.kind ≠ .pipe := by
            cases hnext with
            | newline hk => simp [hk]
            | eof hk => simp [hk]
          obtain ⟨l, hend, hle, hstands⟩ := endLine_nil (f (done ++ [.concat es])) hat
          rw [hscan done]
          simp only [Except.map, Option.bind_some, ht, if_neg hbar]
          exact ⟨l, hend, .ok (by simpa [← hstop] using hle) hstands⟩
      | @bar es p us _ hrest hp hscan =>
          subst hrest
          obtain ⟨ht', -, -, hus⟩ := hat.cons
          rw [List.length_cons] at hstop
          obtain ⟨l, hitems, hfinished⟩ := ih us.length (by omega) (done ++ [.concat es]) hus rfl
          rw [hscan done]
          simp only [Except.map, Option.bind_some, ht', if_pos hp,
            hus.stands.onward (Nat.lt_succ_of_le hle)]
          have hstop' : k + 1 + us.length = i + n := by omega
          rw [hstop'] at hfinished
          exact ⟨l, hitems, hfinished⟩
      | @junk es u us hrest hu hscan =>
          subst hrest
          obtain ⟨ht', -, -, hus⟩ := hat.cons
          rw [hscan done]
          simp only [Except.map, Option.bind_some, ht', if_neg hu]
          exact ⟨k, endLine_cons _ hat, .error hstop hat⟩

theorem line_at (h : At ts i line below) :
    ∃ k, Walk.line ts i = some (line.expr, k) ∧
      Finished ts (i + line.length) below line.expr k := by
  rcases nameAt_at h with ⟨hname, hpool⟩ | ⟨name, next, rest, hname, hpool, -, hstop, hrest⟩
  · simp only [Walk.line, hname, Option.bind_eq_bind, Option.bind_some, Line.expr, hpool]
    exact freeText_at h
  obtain ⟨t, ht, hnext⟩ := hrest.next
  by_cases hbinding : ∃ op, t.kind = .binding op
  · obtain ⟨op, hop⟩ := hbinding
    cases hnext with
    | newline hk => simp [hk] at hop
    | eof hk => simp [hk] at hop
    | @inside us _ _ _ hus =>
        obtain ⟨k, hitems, hfinished⟩ := itemList_at (Expr.bind op name) [] hus
        have hexpr : line.expr =
            (Line.scan true [] {} [] us).map fun r => Expr.bind op name (r.1 ++ [r.2]) := by
          simp only [Line.expr, hpool, hop, Line.itemList]
          cases Line.scan true [] {} [] us <;> rfl
        have hstop' : next + 1 + us.length = i + line.length := by
          rw [← hstop, List.length_cons]
          omega
        rw [← hexpr] at hitems hfinished
        rw [hstop'] at hfinished
        refine ⟨k, ?_, hfinished⟩
        simpa only [Walk.line, hname, ht, hop, Option.bind_eq_bind, Option.bind_some] using hitems
  · have hnot : ∀ op, t.kind ≠ .binding op := fun op hop => hbinding ⟨op, hop⟩
    have hwalk : Walk.line ts i = freeText ts i := by
      simp [Walk.line, hname, ht]
    have hexpr : line.expr = Line.freeText line := by
      cases hnext with
      | newline => simp [Line.expr, hpool]
      | eof => simp [Line.expr, hpool]
      | inside => simp [Line.expr, hpool]
    rw [hwalk, hexpr]
    exact freeText_at h

/-! ## Blocks and statements -/

theorem Finished.nextLine {α : Type} {r : Except SyntaxError α} {stop : Nat} {e : SyntaxError}
    (h : Finished ts stop below r i) (hr : r = .error e) :
    ∃ k, nextLine ts i = some k ∧ stop ≤ k ∧ Stands ts below k := by
  cases h with
  | ok => cases hr
  | error hstop hat =>
      obtain ⟨k, hnext, hle, hstands⟩ := nextLine_at hat
      exact ⟨k, hnext, by omega, hstands⟩

/-- What is read of the first block, and how the blocks go on below it. `lines` are those of the
block that were read before. -/
inductive BlockRead (ts : List Token) (title : Token) (name : Text) (lines : List Expr)
    (body : List Line) (i : Nat) : Option (Reading Expr) → Prop where
  | refused {e : SyntaxError} {k : Nat}
      (h : ∀ done, Statement.blocks title name done lines body = .error e) :
      BlockRead ts title name lines body i (some (.error e, k))
  | read {e : Expr} {k : Nat} {below : List Line} (hbelow : Stands ts below k) (hlt : i < k)
      (hlength : below.length < body.length)
      (h : ∀ done, Statement.blocks title name done lines body =
        if Statement.blockAhead below then Statement.blocks title name (done ++ [e]) [] below
        else .ok (done ++ [e], below)) :
      BlockRead ts title name lines body i (some (.ok e, k))

theorem BlockRead.above {title : Token} {name : Text} {lines lines' : List Expr}
    {r : Option (Reading Expr)} (hle : i ≤ j)
    (hblocks : ∀ done, Statement.blocks title name done lines (line :: below) =
      Statement.blocks title name done lines' below)
    (h : BlockRead ts title name lines' below j r) :
    BlockRead ts title name lines (line :: below) i r := by
  cases h with
  | refused h => exact .refused fun done => (hblocks done).trans (h done)
  | read hbelow hlt hlength h =>
      refine .read hbelow (Nat.lt_of_le_of_lt hle hlt) ?_ fun done => (hblocks done).trans (h done)
      rw [List.length_cons]
      omega

theorem block_at (title : Token) (name : Text) (lines : List Expr) {body : List Line}
    (h : Stands ts body i) :
    BlockRead ts title name lines body i (block ts title name lines i) := by
  induction body generalizing i lines with
  | nil =>
      obtain ⟨j, t, hskip, -, -, ht, hmet⟩ := h.met
      rw [block, hskip]
      simp only [Option.bind_eq_bind, Option.bind_some, ht]
      cases hmet with
      | eof hk =>
          simp only [hk]
          exact .refused fun _ => rfl
  | cons line below ih =>
      obtain ⟨j, t, hskip, hle, -, ht, hmet⟩ := h.met
      rw [block, hskip]
      simp only [Option.bind_eq_bind, Option.bind_some, ht]
      cases hmet with
      | eof hk _ hlines =>
          obtain ⟨rfl, hs⟩ : below = [] ∧ Line.shape line [] = .blank := by simpa using hlines
          simp only [hk]
          exact .refused fun _ => by simp [Statement.blocks, hs]
      | newline hk hs hbelow =>
          simp only [hk, hbelow.onward (Nat.lt_succ_of_le hle)]
          exact (ih lines hbelow).above (by omega) fun _ => by simp [Statement.blocks, hs]
      | @rule _ junk _ hk hs hat =>
          obtain ⟨-, -, -, hjunk⟩ := hat.cons
          simp only [hk]
          cases junk with
          | nil =>
              obtain ⟨k, hend, hle', hstands⟩ := endLine_nil (Expr.joinLines lines) hjunk
              rw [hend]
              exact .read hstands (by omega) (by simp) fun _ => by
                simp [Statement.blocks, hs, Line.nothing]
          | cons u us =>
              rw [endLine_cons _ hjunk]
              exact .refused fun _ => by simp [Statement.blocks, hs, Line.nothing]
      | doubleRule hk hs =>
          simp only [hk]
          exact .refused fun _ => by simp [Statement.blocks, hs]
      | title hk _ htitle hs =>
          obtain ⟨heof, hnewline, hrule, hdouble⟩ := hk
          simp only [htitle, Option.bind_some, if_true]
          exact .refused fun _ => by simp [Statement.blocks, hs]
      | @text _ us _ hk hat htitle hs =>
          obtain ⟨heof, hnewline, hrule, hdouble⟩ := hk
          obtain ⟨k, htext, hfinished⟩ := freeText_at hat
          rw [List.length_cons] at hfinished
          simp only [htitle, htext, Option.bind_some]
          generalize hr : Line.freeText (t :: us) = r at hfinished
          cases hfinished with
          | error => exact .refused fun _ => by simp [Statement.blocks, hs, hr]
          | ok hle' hstands =>
              simp only [hstands.onward (show i < k by omega)]
              exact (ih _ hstands).above (by omega) fun _ => by simp [Statement.blocks, hs, hr]

theorem blocks_at (title : Token) (name : Text) (done : List Expr) {body : List Line}
    (h : Stands ts body i) :
    (∃ e k, Statement.blocks title name done [] body = .error e ∧
        blocks ts title name done i = some (.error e, k)) ∨
      ∃ items rest k, Statement.blocks title name done [] body = .ok (items, rest) ∧
        blocks ts title name done i = some (.ok items, k) ∧ i ≤ k ∧ Stands ts rest k := by
  induction hn : body.length using Nat.strongRecOn generalizing body i done with
  | ind n ih =>
      have hblock := block_at title name [] h
      rw [blocks]
      generalize block ts title name [] i = r at hblock
      cases hblock with
      | @refused e k h => exact Or.inl ⟨e, k, h done, rfl⟩
      | @read e k below hbelow hlt hlength h =>
          simp only [Option.bind_eq_bind, Option.bind_some, blockAhead_at hbelow, h done,
            hbelow.onward hlt]
          by_cases hahead : Statement.blockAhead below = true
          · simp only [hahead, if_true]
            rcases ih below.length (by omega) (done ++ [e]) hbelow rfl with
              hrefused | ⟨items, rest, l, hitems, hread, hle', hrest⟩
            · exact Or.inl hrefused
            · exact Or.inr ⟨items, rest, l, hitems, hread, by omega, hrest⟩
          · simp only [hahead]
            exact Or.inr ⟨_, below, k, rfl, rfl, Nat.le_of_lt hlt, hbelow⟩

theorem definition_at {title : Token} {name : Text} {junk : Line} {body : List Line} {next k : Nat}
    (ht : ts[i]? = some title)
    (hname : nameAt ts i = some (some (name, next))) (hskip : skipWhite ts next = some k)
    (hjunk : At ts (k + 2) junk body) :
    ∃ l, definition ts i = some ((Statement.definition title name junk body).1, l) ∧ k < l ∧
      Stands ts (Statement.definition title name junk body).2 l := by
  simp only [definition, ht, hname, hskip, Option.bind_eq_bind, Option.bind_some, Option.getD_some]
  cases junk with
  | cons u us =>
      obtain ⟨l, hnext, hle, hstands⟩ := nextLine_at hjunk
      simp only [endLine_cons () hjunk, Option.bind_some, hnext, Statement.definition,
        Line.nothing]
      exact ⟨l, rfl, by omega, hstands⟩
  | nil =>
      obtain ⟨l, hend, hle, hstands⟩ := endLine_nil () hjunk
      obtain ⟨m, hresume, hle', hafter⟩ := blockEnd_at hstands
      simp only [hend, Option.bind_some, hresume, Statement.definition, Line.nothing]
      rcases blocks_at title name [] hstands with
        ⟨e, p, hrefused, hread⟩ | ⟨items, rest, p, hitems, hread, hle'', hrest⟩
      · simp only [hrefused, hread, Option.bind_some]
        exact ⟨m, rfl, by omega, hafter⟩
      · simp only [hitems, hread, Option.bind_some]
        exact ⟨p, rfl, by omega, hrest⟩

/-- One statement is read as the lines say. Reading comes further, unless it is at the end. -/
theorem statement_at (h : Stands ts (line :: below) i) :
    ∃ k, statement ts i = some ((Statement.next line below).1, k) ∧
      Stands ts (Statement.next line below).2 k ∧ (i < firstEof ts → i < k) := by
  obtain ⟨j, t, hskip, hle, -, ht, hmet⟩ := h.met
  simp only [statement, hskip, Option.bind_eq_bind, Option.bind_some, ht]
  cases hmet with
  | eof hk hj hlines =>
      obtain ⟨rfl, hs⟩ : below = [] ∧ Line.shape line [] = .blank := by simpa using hlines
      simp only [hk, Statement.next, hs]
      refine ⟨j, rfl, ?_, by omega⟩
      rw [hj]
      exact .eof h.le.1
  | newline hk hs hbelow =>
      simp only [hk, Statement.next, hs]
      exact ⟨j + 1, rfl, hbelow, by omega⟩
  | rule hk hs hat =>
      obtain ⟨k, hnext, hle', hstands⟩ := nextLine_at hat
      rw [List.length_cons] at hle'
      simp only [hk, Statement.next, hs, hnext, Option.bind_some]
      exact ⟨k, rfl, hstands, by omega⟩
  | doubleRule hk hs hat =>
      obtain ⟨k, hnext, hle', hstands⟩ := nextLine_at hat
      rw [List.length_cons] at hle'
      simp only [hk, Statement.next, hs, hnext, Option.bind_some]
      exact ⟨k, rfl, hstands, by omega⟩
  | title hk hat htitle hs hname hskip' hlt hjunk =>
      obtain ⟨heof, hnewline, hrule, hdouble⟩ := hk
      obtain ⟨l, hread, hlt', hstands⟩ := definition_at ht hname hskip' hjunk
      simp only [htitle, Option.bind_some, if_true, hread, Statement.next, hs]
      exact ⟨l, rfl, hstands, by omega⟩
  | @text _ us _ hk hat htitle hs =>
      obtain ⟨heof, hnewline, hrule, hdouble⟩ := hk
      obtain ⟨k, hread, hfinished⟩ := line_at hat
      rw [List.length_cons] at hfinished
      simp only [htitle, Option.bind_some, hread, Statement.next, hs]
      generalize hr : Line.expr (t :: us) = r at hfinished
      cases r with
      | ok e =>
          cases hfinished with
          | ok hle' hstands => exact ⟨k, rfl, hstands, by omega⟩
      | error e =>
          obtain ⟨l, hnext, hle', hstands⟩ := hfinished.nextLine rfl
          simp only [hnext, Option.bind_some]
          exact ⟨l, rfl, hstands, by omega⟩

theorem ofLines_at_end {lines : List Line} (h : Stands ts lines (firstEof ts)) :
    Statement.ofLines lines = [] := by
  cases h with
  | eof => rw [Statement.ofLines]
  | @line _ line rest below hat hcontent =>
      obtain ⟨t, ht, hk⟩ := kind_firstEof hat.closed
      obtain ⟨u, hu, hnext⟩ := hat.next
      obtain rfl : t = u := Option.some.inj (ht.symm.trans hu)
      cases hnext with
      | inside heof => exact absurd hk heof
      | newline hk' => simp [hk] at hk'
      | eof =>
          have hs : Line.shape line [] = .blank := by
            rw [Line.shape, ← hcontent]
            rfl
          rw [Statement.ofLines, Statement.next, hs, Statement.ofLines]
          rfl

/-- Reading by places comes to the end and finds the statements of the lines. -/
theorem statements_at {lines : List Line} (h : Stands ts lines i) :
    statements ts i = some (Statement.ofLines lines) := by
  -- on the number of tokens left: each statement takes at least one
  induction hn : firstEof ts - i using Nat.strongRecOn generalizing lines i with
  | ind n ih =>
      obtain ⟨hend, hle⟩ := h.le
      by_cases hi : i = firstEof ts
      · subst hi
        obtain ⟨t, ht, hk⟩ := kind_firstEof hend
        rw [statements, ht, ofLines_at_end h]
        simp [hk]
      have hlt : i < firstEof ts := by omega
      obtain ⟨t, ht⟩ : ∃ t, ts[i]? = some t := ⟨_, List.getElem?_eq_getElem (by omega)⟩
      cases lines with
      | nil => cases h; omega
      | cons line below =>
          obtain ⟨k, hread, hstands, hadvance⟩ := statement_at h
          have hfurther := hadvance hlt
          have hrest := ih (firstEof ts - k) (by omega) hstands rfl
          rw [statements, ht, Statement.ofLines]
          simp [kind_before_firstEof hlt ht, hread, hstands.onward hfurther, hrest]

/-! ## Every list of tokens -/

/-- From the place `i`, every look ahead stays among the tokens up to the first end. -/
structure InRange (ts : List Token) (i : Nat) : Prop where
  token : ∃ t, ts[i]? = some t
  skipWhite : ∃ j, Walk.skipWhite ts i = some j ∧ i ≤ j ∧ j ≤ firstEof ts
  lineEnd : ∃ j, Walk.lineEnd ts i = some j ∧ i ≤ j ∧ j ≤ firstEof ts
  nextLine : ∃ j, Walk.nextLine ts i = some j ∧ i ≤ j ∧ j ≤ firstEof ts
  nameAt : Walk.nameAt ts i = some none ∨
    ∃ name j, Walk.nameAt ts i = some (some (name, j)) ∧ i < j ∧ j ≤ firstEof ts
  isTitle : ∃ b, Walk.isTitle ts i = some b
  blockAhead : ∃ b, Walk.blockAhead ts i = some b
  blockEnd : ∃ j, Walk.blockEnd ts i = some j ∧ i ≤ j ∧ j ≤ firstEof ts
  segments : ∀ opener items level, ∃ r j,
    Walk.segments ts opener items level i = some (r, j) ∧ i ≤ j ∧ j ≤ firstEof ts

theorem inRange (hend : firstEof ts < ts.length) (hi : i ≤ firstEof ts) : InRange ts i := by
  obtain ⟨line, below, hat⟩ := exists_at hend hi
  have hstands := hat.stands
  refine { token := ?_, skipWhite := ?_, lineEnd := ?_, nextLine := ?_, nameAt := ?_,
           isTitle := ?_, blockAhead := ⟨_, blockAhead_at hstands⟩, blockEnd := ?_,
           segments := ?_ }
  · obtain ⟨t, ht, -⟩ := hat.next
    exact ⟨t, ht⟩
  · obtain ⟨j, hskip, hle, hj⟩ := skipWhite_at hat
    exact ⟨j, hskip, hle, hj.le⟩
  · obtain ⟨hscan, hj⟩ := lineEnd_at hat
    exact ⟨_, hscan, by omega, hj.le⟩
  · obtain ⟨j, hnext, hle, hj⟩ := nextLine_at hat
    exact ⟨j, hnext, by omega, hj.le.2⟩
  · rcases nameAt_at hat with ⟨hname, -⟩ | ⟨name, j, rest, hname, -, hlt, -, hj⟩
    · exact Or.inl hname
    · exact Or.inr ⟨name, j, hname, hlt, hj.le⟩
  · rcases isTitle_at hat with ⟨htitle, -⟩ | ⟨_, _, _, _, _, _, _, htitle, -⟩
    · exact ⟨false, htitle⟩
    · exact ⟨true, htitle⟩
  · obtain ⟨j, hjump, hle, hj⟩ := blockEnd_at hstands
    exact ⟨j, hjump, hle, hj.le.2⟩
  · intro opener items level
    obtain ⟨r, j, rest, hread, hj, hle, -, -⟩ := segments_at opener items level hat
    exact ⟨r, j, hread, hle, hj.le⟩

theorem firstEof_seal (ts : List Token) : firstEof (Token.seal ts) < (Token.seal ts).length := by
  apply List.findIdx_lt_length.2
  unfold Token.seal
  cases hlast : ts.getLast? with
  | none => exact ⟨_, List.mem_singleton_self _, rfl⟩
  | some t =>
      simp only
      split
      case isTrue hk => exact ⟨t, List.mem_of_getLast? hlast, by simp [hk]⟩
      case isFalse => exact ⟨_, List.mem_append_right _ (List.mem_singleton_self _), rfl⟩

theorem split_append_eof {e : Token} (he : e.kind = .eof) (us : List Token) :
    Line.split (us ++ [e]) = Line.split us := by
  induction us with
  | nil => simp [Line.split, he]
  | cons t us ih =>
      rw [List.cons_append, Line.split, Line.split, ih]

theorem split_seal (ts : List Token) : Line.split (Token.seal ts) = Line.split ts := by
  unfold Token.seal
  cases hlast : ts.getLast? with
  | none =>
      rw [List.getLast?_eq_none_iff.1 hlast]
      rfl
  | some t =>
      simp only
      split
      · rfl
      · exact split_append_eof rfl ts

/-- Any tokens at all can be read by their places. No look ahead leaves the tokens or passes the
first end of the document, every statement takes the place further on, and reading ends with the
statements that the lines of the tokens have. -/
theorem statements_seal (ts : List Token) :
    (∃ t, (Token.seal ts)[firstEof (Token.seal ts)]? = some t ∧ t.kind = .eof) ∧
    (∀ i ≤ firstEof (Token.seal ts), InRange (Token.seal ts) i) ∧
    (∀ i < firstEof (Token.seal ts), ∃ s k, statement (Token.seal ts) i = some (s, k) ∧
      i < k ∧ k ≤ firstEof (Token.seal ts)) ∧
    statements (Token.seal ts) 0 = some (Statement.ofTokens ts) := by
  have hend := firstEof_seal ts
  refine ⟨kind_firstEof hend, fun i hi => inRange hend hi, ?_, ?_⟩
  · intro i hi
    obtain ⟨line, below, hat⟩ := exists_at hend (Nat.le_of_lt hi)
    obtain ⟨k, hread, hstands, hadvance⟩ := statement_at hat.stands
    exact ⟨_, k, hread, hadvance hi, hstands.le.2⟩
  · obtain ⟨line, below, hat⟩ := exists_at hend (Nat.zero_le _)
    have hlines := hat.lines
    rw [List.drop_zero, split_seal] at hlines
    rw [statements_at hat.stands, Statement.ofTokens, hlines]

end Walk

end PoolProse
