import Lox.Proofs.Parse.Step
import Lox.Proofs.Source.Move
import Lox.Proofs.Tree.Each

/-! Reading the same tokens at other places, with notes from another supply and with another depth.
A reading follows another one if it takes the same tokens, reports the same problems and has the
same result, all moved; and what it results in is made of the tokens. -/

namespace Lox

/-- How one supply keeps in step with another: from what is left of both, and for places that are
moved, the notes that are drawn correspond. -/
structure Supply.Step (σ σ' : Type) {ν ν' : Type} [Supply σ Position ν]
    [Supply σ' Position ν'] where
  position : Position → Position
  note : ν → ν'
  left : σ → σ'
  draw (p : Position) (s : σ) : Supply.draw (position p) (left s) =
    (note (Supply.draw p s).1, left (Supply.draw p s).2)
  place_note (n : ν) : Supply.place σ' (note n) = position (Supply.place σ n)

namespace Supply.Step

variable (σ : Type) {ν : Type} [Supply σ Position ν]

/-- Every supply keeps in step with itself. -/
def same : Supply.Step σ σ := ⟨id, id, id, fun _ _ => rfl, fun _ => rfl⟩

/-- Places are moved as the tokens are. -/
def moved (f : Position → Position) : Supply.Step Unit Unit :=
  ⟨f, f, id, fun _ _ => rfl, fun _ => rfl⟩

/-- Without its key, a note is a place. -/
def unkeyed : Supply.Step Nat Unit :=
  ⟨id, Keyed.location, fun _ => (), fun _ _ => rfl, fun _ => rfl⟩

end Supply.Step

variable {σ σ' ν ν' : Type} [Supply σ Position ν] [Supply σ' Position ν']

def Cursor.move (v : Supply.Step σ σ') (c : Cursor σ) : Cursor σ' :=
  ⟨c.rest.map (Token.move v.position), v.position c.stop,
    c.errors.map (SourceError.move v.position), v.left c.supply⟩

@[simp] theorem Cursor.move_same (c : Cursor σ) : c.move (.same σ) = c := by
  have htoken : Token.move id = id := rfl
  have herror : SourceError.move id = id := rfl
  simp [move, Supply.Step.same, htoken, herror]

/-- A token of the list says at the place what a node says by itself. A declaration has its names
from tokens of its own, and a loop without a condition has the one that is always true. -/
def Mark.Written (ts : List Token) (p : Position) : Mark → Prop
  | plain => True
  | literal v => v = .bool true ∨ ∃ t ∈ ts, t.operand? t.position = some (.literal p v)
  | access x => ∃ t ∈ ts, t.kind = .identifier ∧ t.lexeme = x ∧ t.position = p
  | unary op => ∃ t ∈ ts, unaryOps.lookup t.kind = some op ∧ t.position = p
  | binary op => ∃ t ∈ ts, ∃ level ∈ infixLevels, level.lookup t.kind = some (.binary op) ∧
    t.position = p
  | logical op => ∃ t ∈ ts, ∃ level ∈ infixLevels, level.lookup t.kind = some (.logical op) ∧
    t.position = p
  | call => ∃ t ∈ ts, t.kind = .leftParen ∧ t.position = p
  | binding xs => ∀ x ∈ xs, ∃ t ∈ ts, t.kind = .identifier ∧ t.lexeme = x

/-- The same of a note that has a place. -/
abbrev Mark.WrittenFor (σ : Type) [Supply σ Position ν] (ts : List Token) (note : ν) :
    Mark → Prop :=
  Mark.Written ts (Supply.place σ note)

theorem Mark.Written.of_infixOp {ts : List Token} {t : Token} (ht : t ∈ ts)
    {level : List (TokenKind × InfixOp)} (hlevel : level ∈ infixLevels) {op : InfixOp}
    (hop : level.lookup t.kind = some op) : op.mark.Written ts t.position := by
  cases op with
  | binary op => exact ⟨t, ht, level, hlevel, hop, rfl⟩
  | logical op => exact ⟨t, ht, level, hlevel, hop, rfl⟩

/-- Where a token stands and which note it gets decides nothing. -/
theorem Token.operand?_move (f : Position → Position) (h : ν → ν') (t : Token) (note : ν) :
    (t.move f).operand? (h note) = (t.operand? note).map (Expr.map h) := by
  unfold operand? move
  dsimp only
  split <;> rfl

private theorem Token.each_operand? {ts : List Token} {t : Token} (ht : t ∈ ts) {note : ν}
    {e : Expr ν} (he : t.operand? note = some e) (hplace : Supply.place σ note = t.position) :
    e.Each (Mark.WrittenFor σ ts) := by
  have hsame : t.operand? t.position = some (e.map (Supply.place σ)) := by
    rw [← hplace]
    exact (t.operand?_move id (Supply.place σ) note).trans (by rw [he, Option.map_some])
  unfold operand? at he
  split at he <;> cases he
  case h_6 hkind => exact ⟨t, ht, hkind, rfl, hplace.symm⟩
  all_goals exact .inr ⟨t, ht, hsame⟩

private theorem Cursor.resume_move (v : Supply.Step σ σ') (c : Cursor σ) :
    (c.move v).resume = c.resume.move v := by
  have hdrop (kind : TokenKind) (ts : List Token) : dropToStatement kind
      (ts.map (Token.move v.position)) = (dropToStatement kind ts).map (.move v.position) := by
    induction ts generalizing kind with
    | nil => rfl
    | cons t rest ih =>
      rw [List.map_cons, dropToStatement, dropToStatement]
      change (if kind = .semicolon || t.kind.startsStatement then _ else _) = _
      split
      · rfl
      · exact ih t.kind
  obtain ⟨_ | ⟨t, rest⟩, stop, errors, supply⟩ := c
  · rfl
  · simp only [resume, move, List.map_cons, hdrop]
    rfl

private theorem dropToStatement_suffix (kind : TokenKind) (ts : List Token) :
    dropToStatement kind ts <:+ ts := by
  induction ts generalizing kind with
  | nil => exact List.suffix_rfl
  | cons t rest ih =>
    rw [dropToStatement]
    split
    · exact List.suffix_rfl
    · exact (ih t.kind).trans (List.suffix_cons t rest)

theorem Cursor.resume_suffix (c : Cursor σ) :
    c.resume.rest <:+ c.rest ∧ c.resume.rest.length ≤ c.rest.length - 1 := by
  obtain ⟨_ | ⟨t, rest⟩, stop, errors, supply⟩ := c
  · exact ⟨List.suffix_rfl, Nat.le_refl _⟩
  · have hdrop := dropToStatement_suffix t.kind rest
    exact ⟨hdrop.trans (List.suffix_cons t rest), hdrop.length_le⟩

namespace Parse

variable {α α' β β' γ : Type}

/-- From a cursor on, `q` follows `p`. Moved results are given by `h`, and `Q` holds of those of
`p`, which takes at least so many tokens if it does not give up. -/
structure FollowsAt (v : Supply.Step σ σ') (taken : Nat) (c : Cursor σ) (p : Parser σ α)
    (q : Parser σ' α') (h : α → α') (Q : α → Prop) : Prop where
  moved : q (c.move v) = ((p c).1.map h, (p c).2.move v)
  suffix : (p c).2.rest <:+ c.rest
  result : ∀ a, (p c).1 = some a → Q a ∧ (p c).2.rest.length + taken ≤ c.rest.length

/-- From every cursor with no more than `n` tokens, all of them in the list, `q` follows `p`. -/
def Follows (v : Supply.Step σ σ') (ts : List Token) (taken n : Nat) (p : Parser σ α)
    (q : Parser σ' α') (h : α → α') (Q : α → Prop) : Prop :=
  ∀ c, c.rest ⊆ ts → c.rest.length ≤ n → FollowsAt v taken c p q h Q

section

variable {v : Supply.Step σ σ'} {ts : List Token} {taken n : Nat} {c : Cursor σ}
  {p : Parser σ α} {q : Parser σ' α'} {h : α → α'} {Q : α → Prop} {k : α → Parser σ β}
  {k' : α' → Parser σ' β'} {h' : β → β'} {R : β → Prop}

theorem FollowsAt.step {a : α} {b : α'} {c' : Cursor σ} {m : Nat} (hp : p c = (some a, c'))
    (hq : q (c.move v) = (some b, c'.move v)) (hsuffix : c'.rest <:+ c.rest)
    (hlength : c'.rest.length + m ≤ c.rest.length)
    (hnext : FollowsAt v (taken - m) c' (k a) (k' b) h' R) :
    FollowsAt v taken c (p >>= k) (q >>= k') h' R := by
  constructor
  · rw [bind_of_some hp, bind_of_some hq]
    exact hnext.moved
  · rw [bind_of_some hp]
    exact hnext.suffix.trans hsuffix
  · rw [bind_of_some hp]
    intro b hb
    obtain ⟨hR, hrest⟩ := hnext.result b hb
    exact ⟨hR, by omega⟩

theorem FollowsAt.stop {c' : Cursor σ} (hp : p c = (none, c'))
    (hq : q (c.move v) = (none, c'.move v))
    (hsuffix : c'.rest <:+ c.rest) : FollowsAt v taken c (p >>= k) (q >>= k') h' R := by
  constructor
  · rw [bind_of_none hp, bind_of_none hq]
    rfl
  · rw [bind_of_none hp]
    exact hsuffix
  · rw [bind_of_none hp]
    nofun

theorem Follows.bind (hp : Follows v ts 0 n p q h Q)
    (hk : ∀ a, Q a → Follows v ts taken n (k a) (k' (h a)) h' R) :
    Follows v ts taken n (p >>= k) (q >>= k') h' R := by
  intro c hts hn
  obtain ⟨hmoved, hsuffix, hresult⟩ := hp c hts hn
  rcases hpc : p c with ⟨_ | a, c'⟩
  · rw [hpc] at hmoved hsuffix
    exact .stop hpc hmoved hsuffix
  · rw [hpc] at hmoved hsuffix hresult
    obtain ⟨hQ, hlength⟩ := hresult a rfl
    have hnext := hk a hQ c' (List.Subset.trans hsuffix.subset hts) (Nat.le_trans hlength hn)
    exact .step hpc hmoved hsuffix hlength hnext

theorem FollowsAt.mono (hp : FollowsAt v taken c p q h Q) {taken' : Nat} (htaken : taken' ≤ taken) :
    FollowsAt v taken' c p q h Q := by
  refine ⟨hp.moved, hp.suffix, fun a ha => ?_⟩
  obtain ⟨hQ, hlength⟩ := hp.result a ha
  exact ⟨hQ, by omega⟩

/-- Also with fewer tokens; and fewer are taken than could be said. -/
theorem Follows.mono (hp : Follows v ts taken n p q h Q) {m : Nat} (hm : m ≤ n) {taken' : Nat}
    (htaken : taken' ≤ taken) : Follows v ts taken' m p q h Q :=
  fun c hts hc => (hp c hts (Nat.le_trans hc hm)).mono htaken

theorem follows_pure {a : α} {b : α'} (hb : b = h a) (hQ : Q a) :
    Follows v ts 0 n (pure a) (pure b) h Q := by
  subst hb
  exact fun c _ _ => ⟨rfl, List.suffix_rfl, fun _ ha => by cases ha; exact ⟨hQ, Nat.le_refl _⟩⟩

theorem Follows.map {g : α → β} {g' : α' → β'} (hp : Follows v ts 0 n p q h Q)
    (hg : ∀ a, g' (h a) = h' (g a)) (hR : ∀ a, Q a → R (g a)) :
    Follows v ts 0 n (g <$> p) (g' <$> q) h' R := by
  rw [map_eq_pure_bind, map_eq_pure_bind]
  exact hp.bind fun a hQ => follows_pure (hg a) (hR a hQ)

theorem follows_ite {b : Prop} [Decidable b] {p' : Parser σ α}
    {q' : Parser σ' α'} (hp : Follows v ts taken n p q h Q)
    (hp' : Follows v ts taken n p' q' h Q) :
    Follows v ts taken n (if b then p else p') (if b then q else q') h Q := by
  split
  · exact hp
  · exact hp'

theorem follows_check {kind : TokenKind} {k : Bool → Parser σ β}
    {k' : Bool → Parser σ' β'}
    (hk : ∀ b, Follows v ts taken n (k b) (k' b) h' R) :
    Follows v ts taken n (check kind >>= k) (check kind >>= k') h' R := by
  intro c hts hn
  let isNext : Bool := c.rest.head?.any (·.kind = kind)
  refine .step (m := 0) rfl ?_ List.suffix_rfl (Nat.le_refl _) (hk isNext c hts hn)
  obtain ⟨_ | ⟨t, rest⟩, stop, errors, supply⟩ := c <;> rfl

theorem follows_place {k : Position → Parser σ β}
    {k' : Position → Parser σ' β'}
    (hk : ∀ note, Follows v ts taken n (k note) (k' (v.position note)) h' R) :
    Follows v ts taken n (place >>= k) (place >>= k') h' R := by
  intro c hts hn
  let note : Position := (c.rest.head?.map (·.position)).getD c.stop
  refine .step (m := 0) rfl ?_ List.suffix_rfl (Nat.le_refl _) (hk note c hts hn)
  obtain ⟨_ | ⟨t, rest⟩, stop, errors, supply⟩ := c <;> rfl

theorem follows_atEnd {k : Bool → Parser σ β}
    {k' : Bool → Parser σ' β'} (hend : Follows v ts taken n (k true) (k' true) h' R)
    (hmore : ∀ c, c.rest ≠ [] → c.rest ⊆ ts → c.rest.length ≤ n →
      FollowsAt v taken c (k false) (k' false) h' R) :
    Follows v ts taken n (atEnd >>= k) (atEnd >>= k') h' R := by
  rintro ⟨_ | ⟨t, rest⟩, stop, errors, supply⟩ hts hn
  · exact .step (m := 0) rfl rfl List.suffix_rfl (Nat.le_refl _) (hend _ hts hn)
  · exact .step (m := 0) rfl rfl List.suffix_rfl (Nat.le_refl _) (hmore _ nofun hts hn)

/-- Goes on with or without a token that `select` accepts. -/
theorem follows_acceptWith {select : TokenKind → Option γ} {k : Option (γ × Token) → Parser σ β}
    {k' : Option (γ × Token) → Parser σ' β'}
    (hnone : Follows v ts taken n (k none) (k' none) h' R)
    (hsome : ∀ a t m, t ∈ ts → select t.kind = some a → m < n →
      Follows v ts (taken - 1) m (k (some (a, t))) (k' (some (a, t.move v.position))) h' R) :
    Follows v ts taken n (acceptWith select >>= k) (acceptWith select >>= k') h' R := by
  rintro ⟨_ | ⟨t, rest⟩, stop, errors, supply⟩ hts hn
  · exact .step (m := 0) rfl rfl List.suffix_rfl (Nat.le_refl _) (hnone _ hts hn)
  · cases hselect : select t.kind with
    | none =>
      refine .step (m := 0) ?_ ?_ List.suffix_rfl (Nat.le_refl _) (hnone _ hts hn)
      · simp only [acceptWith, hselect]
      · simp only [acceptWith, Cursor.move, List.map_cons, Token.move, hselect]
    | some a =>
      obtain ⟨ht, hrest⟩ := List.cons_subset.mp hts
      have hnext := hsome a t rest.length ht hselect hn ⟨rest, stop, errors, supply⟩ hrest
        (Nat.le_refl _)
      refine .step ?_ ?_ (List.suffix_cons t rest) (Nat.le_refl _) hnext
      · simp only [acceptWith, hselect]
      · simp only [acceptWith, Cursor.move, List.map_cons, Token.move, hselect]

theorem follows_accept {kind : TokenKind} {k : Option Token → Parser σ β}
    {k' : Option Token → Parser σ' β'}
    (hnone : Follows v ts taken n (k none) (k' none) h' R)
    (hsome : ∀ t m, t ∈ ts → t.kind = kind → m < n →
      Follows v ts (taken - 1) m (k (some t)) (k' (some (t.move v.position))) h' R) :
    Follows v ts taken n (accept kind >>= k) (accept kind >>= k') h' R := by
  simp only [accept, bind_assoc, pure_bind]
  exact follows_acceptWith hnone fun _ t m ht hkind hm => hsome t m ht (by simpa using hkind) hm

theorem follows_reportAt {t : Token} {e : Expectation} {k : Unit → Parser σ β}
    {k' : Unit → Parser σ' β'}
    (hk : Follows v ts taken n (k ()) (k' ()) h' R) :
    Follows v ts taken n (reportAt t e >>= k) (reportAt (t.move v.position) e >>= k') h' R := by
  intro c hts hn
  refine .step (m := 0) rfl ?_ ?_ (Nat.le_refl _) (hk _ hts hn)
  · simp [reportAt, Cursor.move, SourceError.move, Token.move]
  · exact List.suffix_rfl

theorem follows_report {e : Expectation} {k : Unit → Parser σ β}
    {k' : Unit → Parser σ' β'}
    (hk : Follows v ts taken n (k ()) (k' ()) h' R) :
    Follows v ts taken n (report e >>= k) (report e >>= k') h' R := by
  rintro ⟨_ | ⟨t, rest⟩, stop, errors, supply⟩ hts hn
  · refine .step (m := 0) rfl ?_ List.suffix_rfl (Nat.le_refl _) (hk _ hts hn)
    simp [report, Cursor.move, SourceError.move]
  · refine .step (m := 0) rfl ?_ List.suffix_rfl (Nat.le_refl _) (hk _ hts hn)
    simp [report, reportAt, Cursor.move, SourceError.move, Token.move]

theorem follows_reportWhen {guard : Prop} [Decidable guard] {e : Expectation}
    (hp : Follows v ts taken n p q h Q) : Follows v ts taken n
      (if guard then report e >>= fun _ => p else p) (if guard then report e >>= fun _ => q else q)
      h Q :=
  follows_ite (follows_report hp) hp

private theorem follows_stuck : Follows v ts taken n (stuck >>= k) (stuck >>= k') h' R :=
  fun _ _ _ => .stop rfl rfl List.suffix_rfl

theorem follows_refuse {e : Expectation} :
    Follows v ts taken n (refuse e >>= k) (refuse e >>= k') h' R := by
  simp only [refuse, bind_assoc]
  exact follows_report follows_stuck

theorem follows_refusal {e : Expectation} :
    Follows v ts taken n (refuse e) (refuse e) h Q := by
  rw [← bind_pure (refuse e : Parser σ α), ← bind_pure (refuse e : Parser σ' α')]
  exact follows_refuse

theorem follows_expect {kind : TokenKind} {e : Expectation} {k : Token → Parser σ β}
    {k' : Token → Parser σ' β'}
    (hk : ∀ t m, t ∈ ts → t.kind = kind → m < n →
      Follows v ts (taken - 1) m (k t) (k' (t.move v.position)) h' R) :
    Follows v ts taken n (expect kind e >>= k) (expect kind e >>= k') h' R := by
  simp only [expect, bind_assoc]
  refine follows_accept follows_refuse fun t m ht hkind hm => ?_
  simpa using hk t m ht hkind hm

theorem follows_draw {p : Position} {k : ν → Parser σ β} {k' : ν' → Parser σ' β'}
    (hk : ∀ note, Supply.place σ note = p → Follows v ts taken n (k note) (k' (v.note note)) h' R) :
    Follows v ts taken n (draw p >>= k) (draw (v.position p) >>= k') h' R := by
  rintro ⟨rest, stop, errors, supply⟩ hts hn
  have hnext := hk (Supply.draw p supply).1 (Supply.place_draw p supply)
    ⟨rest, stop, errors, (Supply.draw p supply).2⟩ hts hn
  have hdrawn : draw p ⟨rest, stop, errors, supply⟩ =
      (some (Supply.draw p supply).1, ⟨rest, stop, errors, (Supply.draw p supply).2⟩) := rfl
  refine .step (m := 0) hdrawn ?_ List.suffix_rfl (Nat.le_refl _) hnext
  simp only [draw, Cursor.move, v.draw]

theorem follows_redraw {note : ν} {k : ν → Parser σ β} {k' : ν' → Parser σ' β'}
    (hk : ∀ note', (Supply.place σ note' : Position) = Supply.place σ note →
      Follows v ts taken n (k note') (k' (v.note note')) h' R) :
    Follows v ts taken n (redraw note >>= k) (redraw (v.note note) >>= k') h' R := by
  rw [redraw, redraw, v.place_note]
  exact follows_draw hk

theorem follows_operandToken {k : Option (Expr ν) → Parser σ β}
    {k' : Option (Expr ν') → Parser σ' β'}
    (hnone : Follows v ts taken n (k none) (k' none) h' R)
    (hsome : ∀ e m, e.Each (Mark.WrittenFor σ ts) → m < n →
      Follows v ts (taken - 1) m (k (some e)) (k' (some (e.map v.note))) h' R) :
    Follows v ts taken n (operandToken >>= k) (operandToken >>= k') h' R := by
  rintro ⟨_ | ⟨t, rest⟩, stop, errors, supply⟩ hts hn
  · exact .step (m := 0) rfl rfl List.suffix_rfl (Nat.le_refl _) (hnone _ hts hn)
  · have hmoved : (t.move v.position).operand? (v.note (Supply.draw t.position supply).1) =
        (t.operand? (Supply.draw t.position supply).1).map (Expr.map v.note) :=
      t.operand?_move v.position v.note _
    cases he : t.operand? (Supply.draw t.position supply).1 with
    | none =>
      rw [he] at hmoved
      refine .step (m := 0) ?_ ?_ List.suffix_rfl (Nat.le_refl _) (hnone _ hts hn)
      · simp only [operandToken, he]
      · simp only [operandToken, Cursor.move, List.map_cons, Token.move_position, v.draw, hmoved,
          Option.map_none]
    | some e =>
      rw [he] at hmoved
      obtain ⟨ht, hrest⟩ := List.cons_subset.mp hts
      have hnext := hsome e rest.length
        (t.each_operand? ht he (Supply.place_draw t.position supply))
        hn ⟨rest, stop, errors, (Supply.draw t.position supply).2⟩ hrest (Nat.le_refl _)
      refine .step ?_ ?_ (List.suffix_cons t rest) (Nat.le_refl _) hnext
      · simp only [operandToken, he]
      · simp only [operandToken, Cursor.move, List.map_cons, Token.move_position, v.draw, hmoved,
          Option.map_some]

/-- Where tokens are left, one is taken also if the step gives up. -/
theorem FollowsAt.recovered (hp : FollowsAt v 1 c p q h Q) (hc : c.rest ≠ []) :
    ∃ a c', recovering p c = (some a, c') ∧
      recovering q (c.move v) = (some (a.map h), c'.move v) ∧ (∀ x ∈ a, Q x) ∧
      c'.rest <:+ c.rest ∧ c'.rest.length + 1 ≤ c.rest.length := by
  obtain ⟨hmoved, hsuffix, hresult⟩ := hp
  have hpos : 0 < c.rest.length := List.length_pos_iff.mpr hc
  rcases hpc : p c with ⟨_ | a, c'⟩
  · rw [hpc] at hmoved hsuffix
    obtain ⟨hresume, hlength⟩ := c'.resume_suffix
    refine ⟨none, c'.resume, ?_, ?_, nofun, hresume.trans hsuffix, ?_⟩
    · simp only [recovering, hpc]
    · simp only [recovering, hmoved, Option.map_none, Cursor.resume_move]
    · have hle : c'.rest.length ≤ c.rest.length := hsuffix.length_le
      omega
  · rw [hpc] at hmoved hsuffix hresult
    obtain ⟨hQ, hlength⟩ := hresult a rfl
    refine ⟨some a, c', ?_, ?_, fun x hx => by cases hx; exact hQ, hsuffix, hlength⟩
    · simp only [recovering, hpc]
    · simp only [recovering, hmoved]
      rfl

theorem FollowsAt.recovering {k : Option α → Parser σ β}
    {k' : Option α' → Parser σ' β'} (hp : Follows v ts 1 n p q h Q)
    (hk : ∀ a, (∀ x ∈ a, Q x) → Follows v ts 0 (n - 1) (k a) (k' (a.map h)) h' R)
    (hc : c.rest ≠ []) (hts : c.rest ⊆ ts) (hn : c.rest.length ≤ n) :
    FollowsAt v 1 c (recovering p >>= k) (recovering q >>= k') h' R := by
  obtain ⟨a, c', hpc, hqc, hQ, hsuffix, hlength⟩ := (hp c hts hn).recovered hc
  have hnext := hk a hQ c' (List.Subset.trans hsuffix.subset hts) (by omega)
  exact .step hpc hqc hsuffix hlength hnext

end

end Parse

end Lox
