import DocSnippets.Disk.Glob
import DocSnippets.Proofs.Disk.Passage

/-!
# Reading patterns

A text without wildcards stands for itself in a pattern. So a pattern that is seen from a directory
whose path has no wildcards is read as the parts of that path and then as by itself.
-/

namespace DocSnippets

theorem Text.mem_of_mem_splitOn {sep c : Char} {text part : List Char}
    (h : part ∈ splitOn sep text) (hc : c ∈ part) : c ∈ text := by
  induction text generalizing part with
  | nil =>
    obtain rfl := List.mem_singleton.mp h
    cases hc
  | cons d text ih =>
    rw [splitOn] at h
    split at h
    · rcases List.mem_cons.mp h with rfl | h
      · cases hc
      · exact List.mem_cons_of_mem d (ih h hc)
    · split at h
      · next hnil => exact absurd hnil (splitOn_ne_nil sep text)
      · next first rest hparts =>
        rcases List.mem_cons.mp h with rfl | h
        · rcases List.mem_cons.mp hc with rfl | hc
          · exact List.mem_cons_self
          · exact List.mem_cons_of_mem d (ih (hparts ▸ List.mem_cons_self) hc)
        · exact List.mem_cons_of_mem d (ih (hparts ▸ List.mem_cons_of_mem first h) hc)

namespace Disk

open Text
open Path (component?)

/-- No character is a wildcard. -/
def Literal (text : List Char) : Prop := ∀ c ∈ text, c ∉ ['*', '?', '[']

instance (text : List Char) : Decidable (Literal text) := List.decidableBAll _ text

namespace Wildcard

variable {text : List Char} {tokens : List WildToken} {fuel : Nat} {atStart : Bool}

theorem literal?_cons_literal (c : Char) (tokens : List WildToken) :
    literal? (.literal c :: tokens) = (literal? tokens).map (c :: ·) := by
  rw [literal?, List.mapM_cons]
  change (literal? tokens).bind (fun rest => some (c :: rest)) = _
  rw [Option.map_eq_bind]
  rfl

theorem literal?_map (text : List Char) : literal? (text.map .literal) = some text := by
  induction text with
  | nil => rfl
  | cons c text ih => rw [List.map_cons, literal?_cons_literal, ih, Option.map_some]

theorem literal?_cons_eq_none {t : WildToken} (h : ∀ c, t ≠ .literal c) :
    literal? (t :: tokens) = none := by
  cases t with
  | literal c => exact absurd rfl (h c)
  | anyOne => rfl
  | anyRun => rfl
  | anyDepth => rfl
  | among ranges => rfl
  | outside ranges => rfl

theorem literal?_ne_some {t : WildToken} {rest : Option (List WildToken)}
    (h : rest.map (t :: ·) = some tokens) (ht : ∀ c, t ≠ .literal c) :
    literal? tokens ≠ some text := by
  obtain ⟨rest, -, rfl⟩ := Option.map_eq_some_iff.mp h
  rw [literal?_cons_eq_none ht]
  exact nofun

theorem bracket?_ne_literal {token : WildToken} {after : List Char}
    (h : bracket? text = some (token, after)) (c : Char) : token ≠ .literal c := by
  rintro rfl
  fun_cases bracket? text with
  | case1 close first rest =>
    obtain ⟨x, -, heq⟩ := Option.map_eq_some_iff.mp h
    cases heq
  | case2 rest hrest => simp [bracket?] at h
  | case3 close first rest hfirst hne =>
    rw [bracket?, if_neg hne] at h
    · obtain ⟨x, -, heq⟩ := Option.map_eq_some_iff.mp h
      cases heq
    · exact hfirst
  | case4 => cases h

theorem scan?_literal {c : Char} (h : c ∉ ['*', '?', '[']) :
    scan? (fuel + 1) atStart (c :: text) = (scan? fuel (c = '/') text).map (.literal c :: ·) := by
  simp only [List.mem_cons, List.not_mem_nil, or_false, not_or] at h
  rw [scan?]
  · exact h.2.1
  · exact h.2.2
  · exact h.1

/-- Tokens that are all literal spell the text that they were read from. -/
theorem eq_of_literal? {text' : List Char} (h : scan? fuel atStart text = some tokens)
    (hliteral : literal? tokens = some text') : text' = text := by
  fun_induction scan? fuel atStart text generalizing tokens text' with
  | case1 fuel atStart =>
    obtain rfl := Option.some.inj h
    exact (Option.some.inj hliteral).symm
  | case2 => cases h
  | case3 fuel atStart rest ih => exact absurd hliteral (literal?_ne_some h nofun)
  | case4 => cases h
  | case5 fuel atStart rest token after hbracket ih =>
    exact absurd hliteral (literal?_ne_some h (bracket?_ne_literal hbracket))
  | case6 => cases h
  | case7 =>
    obtain rfl := Option.some.inj h
    cases hliteral
  | case8 fuel after hafter ih => exact absurd hliteral (literal?_ne_some h nofun)
  | case9 => cases h
  | case10 => cases h
  | case11 fuel atStart rest ih => exact absurd hliteral (literal?_ne_some h nofun)
  | case12 fuel atStart rest c hone hset hrun ih =>
    obtain ⟨rest', hrest, rfl⟩ := Option.map_eq_some_iff.mp h
    rw [literal?_cons_literal, Option.map_eq_some_iff] at hliteral
    obtain ⟨text'', htext, rfl⟩ := hliteral
    rw [ih hrest htext]

/-- Up to a slash, characters that are not wildcards are read as they are. -/
theorem scan?_append {front : List Char} (h : Literal front) :
    scan? (front.length + (fuel + 1)) atStart (front ++ '/' :: text) =
      (scan? fuel true text).map ((front ++ ['/']).map .literal ++ ·) := by
  induction front generalizing atStart with
  | nil =>
    rw [List.length_nil, Nat.zero_add]
    exact scan?_literal (by decide)
  | cons c front ih =>
    obtain ⟨hc, hfront⟩ := List.forall_mem_cons.mp h
    rw [List.length_cons, Nat.add_right_comm, List.cons_append, scan?_literal hc, ih hfront,
      Option.map_map]
    rfl

theorem scan?_of_literal (h : Literal text) :
    scan? text.length atStart text = some (text.map .literal) := by
  induction text generalizing atStart with
  | nil => rfl
  | cons c text ih =>
    obtain ⟨hc, htext⟩ := List.forall_mem_cons.mp h
    rw [List.length_cons, scan?_literal hc, ih htext]
    rfl

end Wildcard

namespace Glob

variable {text : List Char}

theorem partOf_literal (text : List Char) : partOf (text.map .literal) = .plain text := by
  rw [partOf, Wildcard.literal?_map]

/-- A part without wildcards is read as it is. -/
theorem eq_of_partOf {tokens : List WildToken} {text' : List Char}
    (h : Wildcard.tokens? text = some tokens) (hpart : partOf tokens = .plain text') :
    text' = text := by
  rw [partOf] at hpart
  split at hpart
  · next literal hliteral =>
    obtain rfl := GlobPart.plain.inj hpart
    exact Wildcard.eq_of_literal? h hliteral
  · split at hpart <;> cases hpart

/-- The text behind the root. -/
def body (text : List Char) : List Char := if text.head? = some '/' then text.tail else text

theorem splitOn_body (text : List Char) : splitOn '/' (body text) =
    if text.head? = some '/' then (splitOn '/' text).tail else splitOn '/' text := by
  rw [body]
  split
  · next hhead =>
    obtain ⟨rest, rfl⟩ := List.head?_eq_some_iff.mp hhead
    rw [splitOn, if_pos rfl]
    rfl
  · rfl

theorem exists_of_mem_mapM {α β : Type} {f : α → Option β} {as : List α} {bs : List β}
    (h : as.mapM f = some bs) {b : β} (hb : b ∈ bs) : ∃ a ∈ as, f a = some b := by
  induction as generalizing bs with
  | nil =>
    obtain rfl := Option.some.inj h
    cases hb
  | cons a as ih =>
    rw [List.mapM_cons] at h
    obtain ⟨first, hfirst, hbehind⟩ := Option.bind_eq_some_iff.mp h
    obtain ⟨rest, hrest, hbs⟩ := Option.bind_eq_some_iff.mp hbehind
    obtain rfl := Option.some.inj hbs
    rcases List.mem_cons.mp hb with rfl | hb
    · exact ⟨a, List.mem_cons_self, hfirst⟩
    · obtain ⟨a', ha', hfa'⟩ := ih hrest hb
      exact ⟨a', List.mem_cons_of_mem a ha', hfa'⟩

/-- A pattern is read if it is well-formed as a whole and in its parts. -/
theorem ofText?_eq (text : List Char) : ofText? text =
    (Wildcard.tokens? text).bind fun _ =>
      ((splitParts (body text)).mapM Wildcard.tokens?).map fun parts =>
        ⟨if text.head? = some '/' then ⟨"/"⟩ else ⟨"."⟩, parts.map partOf,
          text.getLast? = some '/'⟩ := by
  rw [ofText?, body]
  simp only [Option.bind_eq_bind, Option.map_eq_bind]
  rfl

theorem mem_of_mem_splitParts {part : List Char} (h : part ∈ splitParts text) :
    part ∈ splitOn '/' text := by
  rw [splitParts] at h
  split at h
  · exact List.dropLast_subset _ h
  · exact h

theorem notMem_of_plain {g : Glob} (h : ofText? text = some g) {part : List Char}
    (hpart : .plain part ∈ g.parts) : '/' ∉ part := by
  rw [ofText?_eq] at h
  obtain ⟨-, -, hbehind⟩ := Option.bind_eq_some_iff.mp h
  obtain ⟨parts, hparts, rfl⟩ := Option.map_eq_some_iff.mp hbehind
  obtain ⟨tokens, htokens, hplain⟩ := List.mem_map.mp hpart
  obtain ⟨text', htext, hscan⟩ := exists_of_mem_mapM hparts htokens
  rw [eq_of_partOf hscan hplain]
  exact notMem_of_mem_splitOn (mem_of_mem_splitParts htext)

theorem scope_of_relative {g : Glob} (h : ofText? text = some g)
    (hrelative : text.head? ≠ some '/') : g.scope = ⟨"."⟩ := by
  rw [ofText?_eq] at h
  obtain ⟨-, -, hbehind⟩ := Option.bind_eq_some_iff.mp h
  obtain ⟨parts, -, rfl⟩ := Option.map_eq_some_iff.mp hbehind
  exact if_neg hrelative

/-- A relative pattern does not start with an empty part. -/
theorem head?_parts_ne {p : Path} {g : Glob} (h : ofText? p.text.toList = some g)
    (hrelative : p.isAbsolute = false) (hne : p.text ≠ "") : g.parts.head? ≠ some (.plain []) := by
  obtain ⟨first, rest, hsplit, hfirst⟩ := Path.exists_first_part hrelative hne
  have hparts : ∃ rest', splitParts (body p.text.toList) = first :: rest' := by
    rw [body, if_neg (of_decide_eq_false hrelative), splitParts, hsplit]
    split
    · next hlast =>
      cases rest with
      | nil => exact absurd (Option.some.inj hlast) hfirst
      | cons second rest => exact ⟨_, rfl⟩
    · exact ⟨rest, rfl⟩
  obtain ⟨rest', hparts⟩ := hparts
  rw [ofText?_eq, hparts, List.mapM_cons] at h
  obtain ⟨-, -, hbehind⟩ := Option.bind_eq_some_iff.mp h
  obtain ⟨parts, hread, rfl⟩ := Option.map_eq_some_iff.mp hbehind
  obtain ⟨tokens, htokens, hrest⟩ := Option.bind_eq_some_iff.mp hread
  obtain ⟨more, -, hmore⟩ := Option.bind_eq_some_iff.mp hrest
  obtain rfl := Option.some.inj hmore
  exact fun hhead => hfirst (eq_of_partOf htokens (Option.some.inj hhead)).symm

/-! ### Patterns in a directory -/

theorem splitParts_eq {front parts : List (List Char)} (hparts : parts ≠ []) {text' : List Char}
    (htext : splitOn '/' text = front ++ parts) (htext' : splitOn '/' text' = parts) :
    splitParts text = front ++ splitParts text' := by
  have hlast : (front ++ parts).getLast? = parts.getLast? := by
    rw [List.getLast?_append_of_ne_nil front hparts]
  rw [splitParts, splitParts, htext, htext', hlast]
  split
  · rw [List.dropLast_append_of_ne_nil hparts]
  · rfl

theorem mapM_literal {texts : List (List Char)} (h : ∀ text ∈ texts, Literal text) :
    texts.mapM Wildcard.tokens? = some (texts.map (·.map .literal)) := by
  induction texts with
  | nil => rfl
  | cons text texts ih =>
    obtain ⟨htext, htexts⟩ := List.forall_mem_cons.mp h
    rw [List.mapM_cons, ih htexts, Wildcard.tokens?, Wildcard.scan?_of_literal htext]
    rfl

theorem tokens?_append {front : List Char} (h : Literal front) (text : List Char) :
    Wildcard.tokens? (front ++ '/' :: text) =
      (Wildcard.tokens? text).map ((front ++ ['/']).map .literal ++ ·) := by
  rw [Wildcard.tokens?, List.length_append, List.length_cons]
  exact Wildcard.scan?_append h

/-- Behind a text without wildcards and a slash, a pattern is read as by itself. -/
theorem ofText?_append {front : List Char} {texts : List (List Char)} (hfront : Literal front)
    (htexts : ∀ text ∈ texts, Literal text) (hne : text ≠ []) (hrelative : text.head? ≠ some '/')
    (hsplit : splitOn '/' (body (front ++ '/' :: text)) = texts ++ splitOn '/' text) :
    ofText? (front ++ '/' :: text) = (ofText? text).map fun g =>
      ⟨if (front ++ '/' :: text).head? = some '/' then ⟨"/"⟩ else ⟨"."⟩,
        texts.map .plain ++ g.parts, g.onlyDirectories⟩ := by
  have hbody : body text = text := if_neg hrelative
  have hlast : (front ++ '/' :: text).getLast? = text.getLast? := by
    rw [List.getLast?_append_of_ne_nil front (List.cons_ne_nil _ _),
      List.getLast?_cons_of_ne_nil hne]
  have hmap : (texts.map (·.map WildToken.literal)).map partOf = texts.map .plain := by
    rw [List.map_map]
    exact List.map_congr_left fun text _ => partOf_literal text
  rw [ofText?_eq, ofText?_eq text, tokens?_append hfront, hbody, hlast,
    splitParts_eq (splitOn_ne_nil '/' text) hsplit rfl, List.mapM_append, mapM_literal htexts]
  cases Wildcard.tokens? text with
  | none => rfl
  | some tokens =>
    cases (splitParts text).mapM Wildcard.tokens? with
    | none => rfl
    | some parts => simp [hmap]

/-- Where the search for the patterns in a directory starts. -/
def scopeOf (p : Path) : Path := if p.isAbsolute then ⟨"/"⟩ else ⟨"."⟩

/-- The parts of the pattern that a directory is, without that before a slash at its start. -/
def frontParts (p : Path) : List (List Char) :=
  if p.isAbsolute then (splitOn '/' p.asDirectory).tail else splitOn '/' p.asDirectory

theorem mem_of_mem_frontParts {p : Path} {part : List Char} (h : part ∈ frontParts p) :
    part ∈ splitOn '/' p.asDirectory := by
  rw [frontParts] at h
  split at h
  · exact List.mem_of_mem_tail h
  · exact h

theorem filterMap_frontParts (p : Path) :
    (frontParts p).filterMap component? = (splitOn '/' p.text.toList).filterMap component? := by
  rw [← Path.filterMap_asDirectory, frontParts]
  split
  · next habsolute =>
    -- The part before the slash at the start is empty.
    obtain ⟨behind, hbehind⟩ := List.head?_eq_some_iff.mp (of_decide_eq_true habsolute)
    have hhead := Path.head?_asDirectory p
    rw [hbehind, splitOn, if_pos rfl, List.head?_cons, List.head?_eq_some_iff] at hhead
    obtain ⟨rest, hrest⟩ := hhead
    rw [hrest]
    rfl
  · rfl

theorem literal_asDirectory {p : Path} (h : Literal p.text.toList) : Literal p.asDirectory := by
  intro c hc
  apply h
  rcases Path.asDirectory_eq p with hdir | hdir <;> simp [hdir, hc]

/-- A pattern in a directory without wildcards in its path is read as the parts of this path and
then as by itself. -/
theorem ofText?_join {p q : Path} (hliteral : Literal p.text.toList) (hp : p.text ≠ "")
    (hq : q.isAbsolute = false) (hne : q.text ≠ "") :
    ofText? (p.join q).text.toList = (ofText? q.text.toList).map fun g =>
      ⟨scopeOf p, (frontParts p).map .plain ++ g.parts, g.onlyDirectories⟩ := by
  have habsolute : (p.join q).text.toList.head? = some '/' ↔ p.isAbsolute = true := by
    rw [← Path.isAbsolute_join_eq hq p, Path.isAbsolute, decide_eq_true_eq]
  have hbody : splitOn '/' (body (p.join q).text.toList) =
      frontParts p ++ splitOn '/' q.text.toList := by
    rw [splitOn_body, frontParts]
    simp only [habsolute]
    rw [Path.toList_join hq hp, splitOn_append_cons]
    split
    · exact List.tail_append_of_ne_nil (splitOn_ne_nil '/' _)
    · rfl
  have hscope : scopeOf p =
      if (p.join q).text.toList.head? = some '/' then ⟨"/"⟩ else ⟨"."⟩ := by
    rw [scopeOf]
    simp only [habsolute]
  have htext : q.text.toList ≠ [] := fun hnil => hne (String.toList_eq_nil_iff.mp hnil)
  rw [hscope]
  rw [Path.toList_join hq hp] at hbody ⊢
  refine ofText?_append (literal_asDirectory hliteral) (fun text h c hc => ?_) htext
    (of_decide_eq_false hq) hbody
  exact literal_asDirectory hliteral c (mem_of_mem_splitOn (mem_of_mem_frontParts h) hc)

end Glob

end Disk

end DocSnippets
