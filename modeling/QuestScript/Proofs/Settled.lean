/-
# QuestScript.Proofs.Settled -- nodes that padding leaves as they are

A node that is written with padding and read back has a blank on both sides of every token
that is padded (`Legible.airy_of_padded`), whether or not it had before.  A node that has them
already is lowered to the same statement when it is read back: what stands between its tokens
grows, but of trivia a statement keeps no more than that there was some.  Any other node is
lowered to a statement that takes more room, for a blank that only padding wrote is now trivia,
and is kept (`Legible.settles`).

The same holds of statements one behind the other, as the body of a process has them
(`Standing.airy`, `Standing.settles`).
-/
import QuestScript.Proofs.Padded

namespace QuestScript

open Text (isBlank trim)

set_option autoImplicit false

namespace Tree

open Lexeme (Row Flanked words textOf spaces)

variable {t u : Tree} {rule : Rule} {parts ds : List Tree} {rest : List Char}
  {previous : Option TokenKind}

/-! ## Blanks around tokens that are padded -/

/-- A blank stands between the two if one of them is padded: trivia, or the one that the first is
written with in any case. -/
def loose (previous next : Option TokenKind) : Bool :=
  (!isPadded previous || next == some .trivia) &&
    (!isPadded next || previous == some .trivia || spaced previous)

mutual

/-- A blank stands on both sides of every token of a list that is padded. -/
def airy : Tree → Bool
  | ⟨.token _, _, _, _⟩ => true
  | ⟨.rule rule, _, children, _⟩ => rule.keepsText || rule.isCall || airyAll none children

/-- The same for some nodes of a list, behind one of the kind `previous`. -/
def airyAll (previous : Option TokenKind) : List Tree → Bool
  | [] => true
  | child :: rest =>
      loose previous child.tokenKind? && child.airy && airyAll child.tokenKind? rest

end

theorem airy_leaf (t : Token) : (leaf t).airy = true := rfl

theorem airy_kept (keepsText : rule.keepsText) : (ofRule rule parts).airy = true := by
  simp [ofRule, airy, keepsText]

theorem airy_call (isCall : rule.isCall) : (ofRule rule parts).airy = true := by
  simp [ofRule, airy, isCall]

theorem airy_rule (notKept : rule.keepsText = false) (notCall : rule.isCall = false) :
    (ofRule rule parts).airy = airyAll none parts := by
  simp [ofRule, airy, notKept, notCall]

theorem airy_only (givesWay : rule.givesWay) : (ofRule rule parts).airy = airyAll none parts :=
  airy_rule (by cases rule <;> simp_all [Rule.givesWay, Rule.keepsText])
    (by cases rule <;> simp_all [Rule.givesWay, Rule.isCall])

theorem airy_list (isList : rule.isList) : (ofRule rule parts).airy = airyAll none parts := by
  simp only [Rule.isList, Bool.and_eq_true, Bool.not_eq_true'] at isList
  exact airy_rule isList.1.1.2 isList.1.2

theorem tokenKind?_of_isTrivia {g : Tree} (trivia : g.isTrivia) : g.tokenKind? = some .trivia := by
  rw [tokenKind?, label_of_isTrivia trivia]
  rfl

theorem loose_trivia_left (next : Option TokenKind) : loose (some .trivia) next = true := by
  simp [loose, isPadded, Spacing.ofKind]

theorem loose_trivia_right (previous : Option TokenKind) :
    loose previous (some .trivia) = true := by
  simp [loose, isPadded, Spacing.ofKind]

/-- Where no blanks are written between two nodes, none of them is padded. -/
theorem loose_of_width {next : Option TokenKind} (none : width previous false next = 0) :
    loose previous next = true := by
  simp only [width] at none
  cases before : isPadded previous <;> cases behind : isPadded next <;>
    simp_all [loose]

/-- Between two nodes of a list without trivia, only the first of them may bring a blank. -/
theorem spaced_of_loose {next : Option TokenKind} (before : previous ≠ some .trivia)
    (behind : next ≠ some .trivia) (apart : loose previous next)
    (some : width previous false next ≠ 0) : spaced previous = true := by
  cases isSpaced : spaced previous with
  | true => rfl
  | false =>
      obtain ⟨plain, plain'⟩ : isPadded previous = false ∧ isPadded next = false := by
        simpa [loose, before, behind, isSpaced] using apart
      simp [width, plain, plain', isSpaced] at some

theorem loose_of_spaced {next : Option TokenKind} (isSpaced : spaced previous) :
    loose previous next = true := by
  cases padded : isPadded previous with
  | true => rw [not_spaced_of_isPadded padded] at isSpaced; cases isSpaced
  | false => simp [loose, padded, isSpaced]

theorem tokenKind?_ne_trivia {c : Tree} (significant : c.isTrivia = false) :
    c.tokenKind? ≠ some .trivia := by
  intro kind
  simp [isTrivia, kind, TokenKind.isTrivia] at significant

theorem airyAll_gap {tok : Token} (trivia : tok.isTrivia) (d : Tree) :
    airyAll previous (leaf tok :: d :: ds) = (d.airy && airyAll d.tokenKind? ds) := by
  have kind : (leaf tok).tokenKind? = some .trivia := tokenKind?_of_isTrivia trivia
  simp [airyAll, airy_leaf, kind, loose_trivia_left, loose_trivia_right]

/-! ## Reading back -/

/-- `u` was read where `t` was written with padding. -/
structure PaddedBack (t u : Tree) : Prop where
  tidy : u.Tidy
  faultless : u.Faultless
  bare : u.bare = t.bare
  lexemes : u.lexemes = t.padded

/-- Nodes that begin with blanks begin with the leaf of them, if there are any. -/
theorem split_spaces {n : Nat} {ls : List Lexeme} (sound : Sound ds)
    (written : lexemesAll ds = spaces n ++ ls) :
    ∃ ds', (n = 0 ∧ ds = ds' ∨ n ≠ 0 ∧ ∃ tok : Token, tok.isTrivia ∧ ds = leaf tok :: ds') ∧
      Sound ds' ∧ bareAll ds' = bareAll ds ∧ lexemesAll ds' = ls := by
  cases n with
  | zero => exact ⟨ds, .inl ⟨rfl, rfl⟩, sound, rfl, written⟩
  | succ n =>
      obtain ⟨tok, ds', rfl, trivia, soundRest, bare, behind⟩ := split_gap sound rfl written
      exact ⟨ds', .inr ⟨by simp, tok, trivia, rfl⟩, soundRest, bare, behind⟩

/-- A node among others that are read back, and the blanks before it. -/
theorem Legible.split_padded {c : Tree} (h : c.Legible) (isPart : c.label.isPart)
    (significant : c.isTrivia = false) {n : Nat} {bs : List Tree} {ls : List Lexeme}
    (sound : Sound ds) (same : bareAll ds = c.bare :: bs)
    (written : lexemesAll ds = spaces n ++ (c.padded ++ ls)) :
    ∃ d ds', PaddedBack c d ∧ d.isTrivia = false ∧ Sound ds' ∧ bareAll ds' = bs ∧
      lexemesAll ds' = ls ∧ (n = 0 ∧ ds = d :: ds' ∨
        n ≠ 0 ∧ ∃ tok : Token, tok.isTrivia ∧ ds = leaf tok :: d :: ds') := by
  obtain ⟨_, gap, sound, bare, behind⟩ := split_spaces sound written
  obtain ⟨d, ds', rfl, ⟨tidy, faultless⟩, bareD, leaves, sigD, soundRest, others, rest⟩ :=
    split_part sound (h.flanked_padded isPart significant) (h.words_padded isPart)
      (bare.trans same) behind
  exact ⟨d, ds', ⟨tidy, faultless, bareD, leaves⟩, sigD, soundRest, others, rest, gap⟩

theorem PaddedBack.label (h : PaddedBack t u) : u.label = t.label := label_eq_of_bare h.bare

theorem PaddedBack.tokenKind? (h : PaddedBack t u) : u.tokenKind? = t.tokenKind? :=
  congrArg Label.tokenKind? h.label

theorem PaddedBack.ofRule (h : PaddedBack (ofRule rule parts) u) :
    ∃ ds, u = Tree.ofRule rule ds ∧ bareAll ds = bareAll parts ∧ Sound ds ∧
      lexemesAll ds = (Tree.ofRule rule parts).padded := by
  obtain ⟨ds, rfl, bare, sound⟩ := h.tidy.ofRule_of_bare h.faultless h.bare
  exact ⟨ds, rfl, bare, sound, by rw [← h.lexemes, lexemes_ofRule]⟩

/-- A node read back, behind blanks or where none are needed, and those behind it. -/
theorem Legible.airyAll_of_split {c : Tree} (legible : c.Legible) (isPart : c.label.isPart)
    (significant : c.isTrivia = false) (airy : ∀ u, PaddedBack c u → u.airy) {n : Nat}
    {bs : List Tree} {ls : List Lexeme} (sound : Sound ds) (same : bareAll ds = c.bare :: bs)
    (written : lexemesAll ds = spaces n ++ (c.padded ++ ls))
    (apart : n = 0 → loose previous c.tokenKind?)
    (later : ∀ ds, Sound ds → bareAll ds = bs → lexemesAll ds = ls → airyAll c.tokenKind? ds) :
    airyAll previous ds := by
  obtain ⟨d, ds', back, -, soundRest, others, rest, gap⟩ :=
    legible.split_padded isPart significant sound same written
  have behind := later ds' soundRest others rest
  rcases gap with ⟨none, rfl⟩ | ⟨-, tok, trivia, rfl⟩
  · simp [airyAll, back.tokenKind?, apart none, airy d back, behind]
  · simp [airyAll_gap trivia, back.tokenKind?, airy d back, behind]

/-- Nodes read back have blanks on both sides of the tokens that are padded. -/
theorem Spread.airyAll (spread : Spread parts) (legible : ∀ part ∈ parts, part.Legible)
    (isPart : ∀ part ∈ parts, part.label.isPart)
    (h : ∀ part ∈ parts, part.isTrivia = false → ∀ u, PaddedBack part u → u.airy)
    (previous : Option TokenKind) (sound : Sound ds) (same : bareAll ds = bareAll parts)
    (written : lexemesAll ds = paddedAll previous false parts) : airyAll previous ds := by
  induction spread generalizing previous ds with
  | nil =>
      obtain rfl := sound.eq_nil written
      rfl
  | @cons c parts significant spread ih =>
      simp only [List.forall_mem_cons] at legible isPart h
      rw [bareAll_cons significant] at same
      rw [paddedAll_cons significant] at written
      exact legible.1.airyAll_of_split isPart.1 significant (h.1 significant) sound same written
        loose_of_width fun ds => ih legible.2 isPart.2 h.2 c.tokenKind?
  | @gap g c parts trivia significant spread ih =>
      simp only [List.forall_mem_cons] at legible isPart h
      rw [bareAll, if_pos trivia, bareAll_cons significant] at same
      rw [paddedAll_trivia trivia, paddedAll_cons significant] at written
      exact legible.2.1.airyAll_of_split isPart.2.1 significant (h.2.1 significant) sound same
        written (fun none => by simp [width] at none) fun ds =>
          ih legible.2.2 isPart.2.2 h.2.2 c.tokenKind?

/-- **What is read back has blanks around its padded tokens.** -/
theorem Legible.airy_of_padded {t : Tree} (h : t.Legible) (isPart : t.label.isPart)
    (goesOn : rest ≠ []) (row : Row t.lexemes rest) : ∀ u, PaddedBack t u → u.airy := by
  have airy : t.Legible → ∀ rest, rest ≠ [] → Row t.lexemes rest → ∀ u, PaddedBack t u →
      u.airy := by
    refine Legible.induct ?token ?kept ?function ?method ?only ?list h isPart
    case token =>
      intro tok _ _ rest _ _ u back
      obtain ⟨tok', rfl, -⟩ := back.tidy.leaf_of_bare back.bare
      rfl
    case kept =>
      intro rule parts keepsText _ _ rest _ _ u back
      obtain ⟨ds, rfl, -⟩ := back.ofRule
      exact airy_kept keepsText
    case function =>
      intro call _ _ rest _ _ u back
      obtain ⟨ds, rfl, -⟩ := back.ofRule
      exact airy_call rfl
    case method =>
      intro m _ _ rest _ _ u back
      obtain ⟨ds, rfl, -⟩ := back.ofRule
      exact airy_call rfl
    case only =>
      intro rule part givesWay below partIsPart significant _ ih legible rest goesOn row u back
      obtain ⟨ds, rfl, same, sound, written⟩ := back.ofRule
      rw [padded_only givesWay] at written
      rw [airy_only givesWay]
      refine (Spread.cons significant .nil).airyAll (by simpa using below)
        (by simpa using partIsPart) ?_ none sound same written
      simpa using fun _ => ih below rest goesOn (by simpa using row)
    case list =>
      intro rule parts isList _ ih legible rest goesOn row u back
      obtain ⟨ds, rfl, same, sound, written⟩ := back.ofRule
      rw [padded_list isList] at written
      rw [lexemes_ofRule] at row
      rw [airy_list isList]
      refine (legible.spread row).airyAll legible.below (legible.isPart_of_mem isList)
        (fun part member _ => ?_) none sound same written
      obtain ⟨behind, goesOn, rowPart⟩ := row_of_mem row goesOn member
      exact ih part member (legible.below part member) behind goesOn rowPart
  exact airy h rest goesOn row

/-! ## Room -/

/-- The length of a statement that is written with padding. -/
def room (s : Statement) : Nat := (s.render .padded).toList.length

/-- The length of statements that are written with padding one behind the other. -/
def roomAll : List Statement → Nat
  | [] => 0
  | s :: ss => room s + roomAll ss

@[simp] theorem roomAll_cons (s : Statement) (ss : List Statement) :
    roomAll (s :: ss) = room s + roomAll ss := rfl

theorem length_renderAll (ss : List Statement) :
    (Statement.renderAll .padded ss).toList.length = roomAll ss := by
  induction ss with
  | nil => rfl
  | cons s ss ih => rw [toList_renderAll_cons, List.length_append, ih, roomAll_cons, room]

theorem roomAll_append (ss others : List Statement) :
    roomAll (ss ++ others) = roomAll ss + roomAll others := by
  induction ss with
  | nil => simp [roomAll]
  | cons s ss ih => rw [List.cons_append, roomAll_cons, roomAll_cons, ih, Nat.add_assoc]

/-! ## Settled nodes -/

/-- Where `u` is read back for `t`, it is lowered to the same statement if blanks stand around the
padded tokens of `t`, and to one that takes more room if not. -/
structure Settles (t u : Tree) (s s' : Statement) : Prop where
  same : t.airy → s' = s
  less : room s ≤ room s'
  airy : room s' ≤ room s → t.airy

theorem settles_refl (airy : t.airy) (s : Statement) : Settles t u s s :=
  ⟨fun _ => rfl, le_rfl, fun _ => airy⟩

/-- The same for what nodes of a list are lowered to, where `isAiry` says that blanks stand around
the padded tokens of the nodes. -/
structure SettlesAll (isAiry : Bool) (ps ps' : List Sourced) : Prop where
  same : isAiry → ps' = ps
  less : roomAll (ps.map Prod.snd) ≤ roomAll (ps'.map Prod.snd)
  airy : roomAll (ps'.map Prod.snd) ≤ roomAll (ps.map Prod.snd) → isAiry

section SettlesAll

variable {isAiry apart : Bool} {ps ps' front : List Sourced} {s s' : Statement}

theorem SettlesAll.nil : SettlesAll true [] [] := ⟨fun _ => rfl, le_rfl, fun _ => rfl⟩

theorem Settles.cons (first : Settles t u s s') (later : SettlesAll isAiry ps ps')
    (label : Label) :
    SettlesAll (t.airy && isAiry) ((label, s) :: ps) ((label, s') :: ps') := by
  have less := first.less
  have more := later.less
  refine ⟨fun airy => ?_, ?_, fun small => ?_⟩
  · rw [Bool.and_eq_true] at airy
    rw [first.same airy.1, later.same airy.2]
  · simp only [List.map_cons, roomAll_cons]
    omega
  · simp only [List.map_cons, roomAll_cons] at small
    rw [first.airy (by omega), later.airy (by omega)]
    rfl

/-- Behind the same. -/
theorem SettlesAll.behind (h : SettlesAll isAiry ps ps') (front : List Sourced) :
    SettlesAll isAiry (front ++ ps) (front ++ ps') := by
  refine ⟨fun airy => by rw [h.same airy], ?_, ?_⟩
  · simpa [roomAll_append] using h.less
  · simpa [roomAll_append] using h.airy

/-- Behind what is put in, if it takes room. -/
theorem SettlesAll.put (h : SettlesAll isAiry ps ps') (none : apart → front = [])
    (bare : roomAll (front.map Prod.snd) = 0 → apart) :
    SettlesAll (apart && isAiry) ps (front ++ ps') := by
  have less := h.less
  have rooms : roomAll ((front ++ ps').map Prod.snd) =
      roomAll (front.map Prod.snd) + roomAll (ps'.map Prod.snd) := by
    rw [List.map_append, roomAll_append]
  refine ⟨fun airy => ?_, by omega, fun small => ?_⟩
  · rw [Bool.and_eq_true] at airy
    rw [none airy.1, h.same airy.2, List.nil_append]
  · rw [bare (by omega), h.airy (by omega)]
    rfl

end SettlesAll

theorem sound_of_legible (legible : ∀ d ∈ ds, d.Legible) : Sound ds := fun d member =>
  ⟨(legible d member).tidy, (legible d member).faultless⟩

/-- A node among others that are read back is lowered, and settled if it is whatever is read. -/
theorem Legible.settles_of_split {c : Tree} (h : c.Legible) (isPart : c.label.isPart)
    (significant : c.isTrivia = false)
    (settles : ∀ u, PaddedBack c u → u.Legible → ∀ s s', c.lower = .ok (some s) →
      u.lower = .ok (some s') → Settles c u s s')
    {n : Nat} {bs : List Tree} {ls : List Lexeme} (legible : ∀ d ∈ ds, d.Legible)
    (same : bareAll ds = c.bare :: bs) (written : lexemesAll ds = spaces n ++ (c.padded ++ ls))
    {s : Statement} (lowered : c.lower = .ok (some s)) :
    ∃ d ds' s', PaddedBack c d ∧ d.isTrivia = false ∧ d.lower = .ok (some s') ∧
      Settles c d s s' ∧ (∀ d ∈ ds', d.Legible) ∧ bareAll ds' = bs ∧ lexemesAll ds' = ls ∧
      (n = 0 ∧ ds = d :: ds' ∨ n ≠ 0 ∧ ∃ tok : Token, tok.isTrivia ∧ ds = leaf tok :: d :: ds') := by
  obtain ⟨d, ds', back, significant, -, others, rest, gap⟩ :=
    h.split_padded isPart significant (sound_of_legible legible) same written
  have within : d :: ds' ⊆ ds := by
    rcases gap with ⟨-, rfl⟩ | ⟨-, tok, -, rfl⟩
    · exact List.Subset.refl _
    · exact List.subset_cons_self _ _
  obtain ⟨first, later⟩ := List.forall_mem_cons.mp fun d member => legible d (within member)
  obtain ⟨s', lowered'⟩ := first.tidy.lower_ok first.met (by rw [back.label]; exact isPart)
  exact ⟨d, ds', s', back, significant, lowered', settles d back first s s' lowered lowered',
    later, others, rest, gap⟩

/-- Nodes that are read back become what they became before if blanks stand around the tokens that
are padded, and take more room if not. -/
theorem Spread.settles (spread : Spread parts) (legible : ∀ part ∈ parts, part.Legible)
    (isPart : ∀ part ∈ parts, part.label.isPart)
    (h : ∀ part ∈ parts, part.isTrivia = false → ∀ u rest, PaddedBack part u → u.Legible →
      Row part.lexemes rest → ∀ s s', part.lower = .ok (some s) → u.lower = .ok (some s') →
        Settles part u s s')
    (previous : Option TokenKind) (notTrivia : previous ≠ some .trivia)
    (row : Row (lexemesAll parts) rest) (legible' : ∀ d ∈ ds, d.Legible)
    (same : bareAll ds = bareAll parts) (written : lexemesAll ds = paddedAll previous false parts)
    {ps ps' : List Sourced} (lowered : lowerChildren previous parts = .ok ps)
    (lowered' : lowerChildren previous ds = .ok ps') :
    SettlesAll (Tree.airyAll previous parts) ps ps' := by
  induction spread generalizing previous ds ps ps' with
  | nil =>
      obtain rfl := (sound_of_legible legible').eq_nil written
      obtain rfl : [] = ps := Except.ok.inj lowered
      obtain rfl : [] = ps' := Except.ok.inj lowered'
      exact .nil
  | @cons c parts significant spread ih =>
      simp only [List.forall_mem_cons] at legible isPart h
      rw [lexemesAll_cons, Lexeme.row_append] at row
      rw [bareAll_cons significant] at same
      rw [paddedAll_cons significant] at written
      have kind := tokenKind?_ne_trivia significant
      obtain ⟨s, hs⟩ := legible.1.tidy.lower_ok legible.1.met isPart.1
      obtain ⟨others, hothers, rfl⟩ := (lowerChildren_significant significant hs).mp lowered
      obtain ⟨d, ds', s', back, sigD, hs', first, legibleRest, bare, rest, gap⟩ :=
        legible.1.settles_of_split isPart.1 significant
          (fun u back again => h.1 significant u _ back again row.1) legible' same written hs
      have later {others' : List Sourced}
          (hothers' : lowerChildren d.tokenKind? ds' = .ok others') :=
        ih legible.2 isPart.2 h.2 c.tokenKind? kind row.2 legibleRest bare rest hothers
          (back.tokenKind? ▸ hothers')
      rw [Tree.airyAll, Bool.and_assoc, ← back.label]
      rcases gap with ⟨none, rfl⟩ | ⟨some, tok, trivia, rfl⟩
      · obtain ⟨others', hothers', rfl⟩ := (lowerChildren_significant sigD hs').mp lowered'
        rw [loose_of_width none, Bool.true_and]
        exact first.cons (later hothers') _
      · obtain ⟨others', hothers', rfl⟩ :=
          (lowerChildren_gap (.leaf tok) trivia sigD hs').mp lowered'
        -- The blank that was put in takes room, unless it is dropped.
        refine (first.cons (later hothers') _).put
          (fun airy => if_pos (spaced_of_loose notTrivia kind airy some)) fun bare => ?_
        refine loose_of_spaced (Bool.of_not_eq_false fun notSpaced => ?_)
        have blank : room (.token .trivia " ") = 1 := rfl
        simp [notSpaced, roomAll, blank] at bare
  | @gap g c parts trivia significant spread ih =>
      simp only [List.forall_mem_cons] at legible isPart h
      rw [lexemesAll_cons, lexemesAll_cons, Lexeme.row_append, Lexeme.row_append] at row
      rw [bareAll, if_pos trivia, bareAll_cons significant] at same
      rw [paddedAll_trivia trivia, paddedAll_cons significant] at written
      obtain ⟨legibleGap, legible, legibles⟩ := legible
      obtain ⟨s, hs⟩ := legible.tidy.lower_ok legible.met isPart.2.1
      obtain ⟨others, hothers, rfl⟩ :=
        (lowerChildren_gap legibleGap.tidy trivia significant hs).mp lowered
      obtain ⟨d, ds', s', back, sigD, hs', first, legibleRest, bare, rest, gap⟩ :=
        legible.settles_of_split isPart.2.1 significant
          (fun u back again => h.2.1 significant u _ back again row.2.1) legible' same written hs
      rcases gap with ⟨none, rfl⟩ | ⟨-, tok, isTrivia, rfl⟩
      · simp [width] at none
      · obtain ⟨others', hothers', rfl⟩ :=
          (lowerChildren_gap (.leaf tok) isTrivia sigD hs').mp lowered'
        have later := ih legibles isPart.2.2 h.2.2 c.tokenKind? (tokenKind?_ne_trivia significant)
          row.2.2 legibleRest bare rest hothers (back.tokenKind? ▸ hothers')
        obtain ⟨gap, rfl⟩ := legibleGap.tidy.eq_leaf (isToken_of_isTrivia trivia)
        rw [airyAll_gap trivia, label_of_isTrivia (t := leaf tok) isTrivia,
          label_of_isTrivia trivia, back.label]
        exact (first.cons later _).behind _

theorem PaddedBack.readBack (back : PaddedBack t u) (same : t.padded = t.written) : ReadBack t u :=
  ⟨back.tidy, back.faultless, back.bare, back.lexemes.trans same⟩

/-- A node that is written with padding as it is without is lowered to the same statement. -/
theorem Legible.settles_written (h : t.Legible) (isPart : t.label.isPart) (airy : t.airy)
    (same : t.padded = t.written) (back : PaddedBack t u) (row : Row t.lexemes rest)
    {s s' : Statement} (lowered : t.lower = .ok (some s)) (lowered' : u.lower = .ok (some s')) :
    Settles t u s s' := by
  have restored := h.restores isPart u rest (back.readBack same) row
  obtain rfl : s = s' := by simpa using lowered.symm.trans (restored.symm.trans lowered')
  exact settles_refl airy s

/-- A node that holds only one is read back as one that holds only one. -/
theorem Legible.only_padded {part : Tree} (h : (ofRule rule [part]).Legible)
    (givesWay : rule.givesWay) (below : part.Legible) (isPart : part.label.isPart)
    (significant : part.isTrivia = false) (back : PaddedBack (ofRule rule [part]) u) :
    ∃ d, u = ofRule rule [d] ∧ d.isTrivia = false ∧ PaddedBack part d := by
  obtain ⟨ds, rfl, same, sound, written⟩ := back.ofRule
  have plain : isPadded part.tokenKind? = false := (h.ends_not_padded (.inr givesWay)).1 _ rfl
  rw [padded_only givesWay, paddedAll_cons significant, width_first plain] at written
  rw [bareAll_cons significant] at same
  obtain ⟨d, ds', backD, sigD, soundRest, -, none, gap⟩ :=
    below.split_padded isPart significant sound same written
  obtain rfl := soundRest.eq_nil none
  obtain rfl : ds = [d] := by simpa using gap
  exact ⟨d, rfl, sigD, backD⟩

/-- **A node is settled just if blanks stand around its padded tokens**: read back where it was
written with padding, it is lowered to the same statement, and to one that takes more room if they
do not. -/
theorem Legible.settles {t : Tree} (h : t.Legible) (isPart : t.label.isPart) :
    t.isTrivia = false → ∀ u rest, PaddedBack t u → u.Legible → Row t.lexemes rest →
      ∀ s s', t.lower = .ok (some s) → u.lower = .ok (some s') → Settles t u s s' := by
  have settles : t.Legible → t.isTrivia = false → ∀ u rest, PaddedBack t u → u.Legible →
      Row t.lexemes rest → ∀ s s', t.lower = .ok (some s) → u.lower = .ok (some s') →
        Settles t u s s' := by
    refine Legible.induct ?token ?kept ?function ?method ?only ?list h isPart
    case token =>
      intro tok _ legible significant u rest back _ row s s'
      refine legible.settles_written ?_ rfl ?_ back row
      · simpa [isBody, leaf] using legible.body
      · rw [padded_leaf, written_leaf, if_neg (by simpa using significant)]
    case kept =>
      intro rule parts keepsText _ legible _ u rest back _ row s s'
      refine legible.settles_written ?_ (airy_kept keepsText) ?_ back row
      · cases rule <;> first | rfl | simp [Rule.keepsText] at keepsText
      · rw [padded_kept keepsText, written_kept keepsText]
    case function =>
      intro call _ legible _ u rest back _ row s s'
      exact legible.settles_written rfl (airy_call rfl) (padded_call rfl) back row
    case method =>
      intro m _ legible _ u rest back _ row s s'
      exact legible.settles_written rfl (airy_call rfl) (padded_call rfl) back row
    case only =>
      intro rule part givesWay below partIsPart significant _ ih legible _ u rest back again row
      obtain ⟨d, rfl, sigD, backD⟩ := legible.only_padded givesWay below partIsPart significant back
      intro s s' lowered lowered'
      rw [lower_only givesWay significant] at lowered
      rw [lower_only givesWay sigD] at lowered'
      have plain : isPadded part.tokenKind? = false :=
        (legible.ends_not_padded (.inr givesWay)).1 _ rfl
      have apart : loose none part.tokenKind? = true := by
        rw [loose, plain]
        rfl
      have airy : (ofRule rule [part]).airy = part.airy := by
        rw [airy_only givesWay, airyAll, airyAll, apart, Bool.true_and, Bool.and_true]
      obtain ⟨same, less, airyPart⟩ := ih below significant d rest backD (again.below d (by simp))
        (by simpa using row) s s' lowered lowered'
      exact ⟨airy ▸ same, less, airy ▸ airyPart⟩
    case list =>
      intro rule parts isList _ ih legible _ u rest back again row s s' lowered lowered'
      obtain ⟨ds, rfl, same, sound, written⟩ := back.ofRule
      rw [padded_list isList] at written
      rw [lexemes_ofRule] at row
      obtain ⟨ps, inner, isComposite, children⟩ := lower_list isList lowered
      obtain ⟨ps', inner', isComposite', children'⟩ := lower_list isList lowered'
      obtain ⟨samePs, less, airy⟩ := (legible.spread row).settles legible.below
        (legible.isPart_of_mem isList)
        (fun part member => ih part member (legible.below part member)) none (by simp) row
        again.below same written inner inner'
      have rooms {s : Statement} (isComposite : s.isComposite) : room s = roomAll s.children := by
        rw [room, Statement.render_of_isComposite isComposite, length_renderAll]
      rw [← children, ← children', ← rooms isComposite, ← rooms isComposite'] at less airy
      rw [← airy_list isList] at samePs airy
      refine ⟨fun isAiry => ?_, less, airy⟩
      have lowered := lower_list_congr isList inner (samePs isAiry ▸ inner') same lowered
      simpa using lowered'.symm.trans lowered
  exact settles h

/-! ## Statements -/

section Statements

variable {stmts : List Tree}

/-- The lexemes that statements are written as with padding, one behind the other. -/
def paddedStatements (stmts : List Tree) : List Lexeme := stmts.flatMap padded

theorem significant_of_isStatement {s : Tree} (h : s.label.isStatement) : s.isTrivia = false :=
  not_trivia_of_not_token (not_token_of_isStatement h)

theorem Standing.flanked_padded (h : Standing stmts) : ∀ s ∈ stmts, Flanked s.padded :=
  fun s member => (h.legible s member).flanked_padded
    (isPart_of_isStatement (h.isStatement s member))
    (significant_of_isStatement (h.isStatement s member))

theorem Standing.said_padded (h : Standing stmts) : ∀ s ∈ stmts, words s.padded = words s.lexemes :=
  fun s member => (h.legible s member).words_padded
    (isPart_of_isStatement (h.isStatement s member))

/-- Statements may be written with padding one behind the other, before any text. -/
theorem Standing.row_padded (h : Standing stmts) (new : List Char) :
    Row (paddedStatements stmts) new := by
  refine row_flatMap (fun s member new => ?_) new
  obtain ⟨behind, goesOn, row⟩ := h.row s member
  exact (h.legible s member).row_padded (h.isStatement s member) row goesOn new

theorem Standing.words_padded (h : Standing stmts) :
    words (paddedStatements stmts) = words (writtenStatements stmts) :=
  (words_flatMap h.said_padded).trans h.words_written.symm

/-- Statements written with padding do not begin with trivia. -/
theorem Standing.quiet_padded (h : Standing stmts) (goesOn : paddedStatements stmts ≠ [])
    (new : List Char) : Lexeme.Quiet (textOf (paddedStatements stmts) ++ new) :=
  quiet_flatMap h.flanked_padded (h.row_padded new) goesOn

/-- The text of lowered statements, with padding, is the text of what they are written as. -/
theorem Standing.textOf_padded (h : Standing stmts) {L : List Statement}
    (lowered : lowerStatements stmts = .ok L) :
    textOf (paddedStatements stmts) = (Statement.renderAll .padded L).toList := by
  refine textOf_flatMap (fun s member first hfirst => ?_) lowered
  have isStatement := h.isStatement s member
  obtain ⟨behind, goesOn, row⟩ := h.row s member
  have text := (h.legible s member).render_padded (isPart_of_isStatement isStatement)
    (significant_of_isStatement isStatement) behind goesOn row first
    (by rw [lower_of_isStatement isStatement, hfirst]; rfl)
  have notToken : s.tokenKind? = none := by
    simpa [isToken] using not_token_of_isStatement isStatement
  rw [notToken] at text
  simpa [before, Tree.behind, isPadded, spaced] using text.symm

/-- **A block is read back with padding**: where its braces and statements were written, with any
trivia between them, its statements are those that were written. -/
theorem Legible.statements_padded (h : (ofRule .block parts).Legible)
    (row : Row (lexemesAll parts) rest) {opening closing : Token}
    (opens : opening.kind = .lBrace) (closes : closing.kind = .rBrace)
    (whole : withoutTrivia parts = leaf opening :: (statements parts ++ [leaf closing]))
    {front back : List Lexeme} (before : ∀ l ∈ front, l.isTrivia) (behind : ∀ l ∈ back, l.isTrivia)
    (sound : Sound ds) (bare : bareAll ds = bareAll parts)
    (written : lexemesAll ds = opening.lexeme ::
      (front ++ (paddedStatements (statements parts) ++ (back ++ [closing.lexeme])))) :
    List.Forall₂ PaddedBack (statements parts) (statements ds) :=
  h.statements_back PaddedBack.mk (h.standing row).flanked_padded (h.standing row).said_padded
    opens closes whole before behind sound bare written

/-- Statements read back have blanks around their padded tokens. -/
theorem Standing.airy (h : Standing stmts) (backs : List.Forall₂ PaddedBack stmts ds) :
    ∀ d ∈ ds, d.airy := by
  induction backs with
  | nil => simp
  | cons back _ ih =>
      obtain ⟨⟨legible, isStatement, behind, goesOn, row⟩, others⟩ := standing_cons.mp h
      exact List.forall_mem_cons.mpr
        ⟨legible.airy_of_padded (isPart_of_isStatement isStatement) goesOn row _ back, ih others⟩

/-- Statements that are read back are lowered to what they were lowered to before if blanks stand
around their padded tokens, and take more room if not. -/
theorem Standing.settles (h : Standing stmts) (legible' : ∀ d ∈ ds, d.Legible)
    (backs : List.Forall₂ PaddedBack stmts ds) {L L' : List Statement}
    (lowered : lowerStatements stmts = .ok L) (lowered' : lowerStatements ds = .ok L') :
    ((∀ s ∈ stmts, s.airy) → L' = L) ∧ roomAll L ≤ roomAll L' ∧
      (roomAll L' ≤ roomAll L → ∀ s ∈ stmts, s.airy) := by
  induction backs generalizing L L' with
  | nil =>
      obtain rfl : L = L' := by simpa using lowered.symm.trans lowered'
      exact ⟨fun _ => rfl, le_rfl, fun _ => by simp⟩
  | @cons s d stmts ds back _ ih =>
      obtain ⟨⟨legible, isStatement, behind, goesOn, row⟩, others⟩ := standing_cons.mp h
      obtain ⟨legibleFirst, legibleOthers⟩ := List.forall_mem_cons.mp legible'
      obtain ⟨first, rest, hfirst, hrest, rfl⟩ := lowerStatements_cons.mp lowered
      obtain ⟨first', rest', hfirst', hrest', rfl⟩ := lowerStatements_cons.mp lowered'
      have isStatement' : d.label.isStatement := by rwa [back.label]
      obtain ⟨same, less, airy⟩ := legible.settles (isPart_of_isStatement isStatement)
        (significant_of_isStatement isStatement) d behind back legibleFirst row first first'
        (by rw [lower_of_isStatement isStatement, hfirst]; rfl)
        (by rw [lower_of_isStatement isStatement', hfirst']; rfl)
      obtain ⟨sameRest, lessRest, airyRest⟩ := ih others legibleOthers hrest hrest'
      rw [roomAll_cons, roomAll_cons, List.forall_mem_cons]
      refine ⟨fun isAiry => ?_, by omega, fun small => ⟨airy (by omega), airyRest (by omega)⟩⟩
      rw [same isAiry.1, sameRest isAiry.2]

end Statements

end Tree

end QuestScript
