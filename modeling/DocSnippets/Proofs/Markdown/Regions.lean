import DocSnippets.Proofs.Markdown.Offsets
import DocSnippets.Proofs.Markdown.Rendering

/-!
# The regions of a document

The scan finds the regions of a document and misses none. What it finds are fenced bodies behind an
opening line with a tag, one after the other. A run of three backticks with a tag behind it, and
with a line and a fence to come, either opens one of them or lies within one.
-/

namespace DocSnippets

open Text

namespace Dialect

/-- A text starts with a tag of the dialect, which ends at a blank or with the text. -/
inductive Tagged (d : Dialect) : List Char → Prop where
  | intro {tag extra} (hspelling : tag.map Char.toLower = d.spelling)
      (hextra : extra.head?.all isBlank = true) : Tagged d (tag ++ extra)

theorem spelling_of_ofTag? {tag : List Char} {d : Dialect} (h : ofTag? tag = some d) :
    tag.map Char.toLower = d.spelling := by
  unfold ofTag? at h
  dsimp only at h
  split at h
  · next htag =>
    cases h
    exact htag
  · split at h
    · next htag =>
      cases h
      exact htag
    · split at h
      · next htag =>
        cases h
        exact htag
      · cases h

theorem ofOpener?_eq_some_iff {info : List Char} {d : Dialect} :
    ofOpener? info = some d ↔ Tagged d info := by
  constructor
  · intro h
    unfold ofOpener? at h
    split at h
    · cases h
    · next hblank =>
      have hstart : trimStart info = info := by
        cases info with
        | nil => rfl
        | cons c info =>
          refine List.dropWhile_cons_of_neg ?_
          simpa using hblank
      have htag := spelling_of_ofTag? h
      rw [firstWord, hstart] at htag
      rw [← List.takeWhile_append_dropWhile (p := fun c => !isBlank c) (l := info)]
      refine .intro htag ?_
      cases hdrop : info.dropWhile fun c => !isBlank c with
      | nil => rfl
      | cons c extra =>
        have hc : (!isBlank c) = false := by
          have hne : info.dropWhile (fun c => !isBlank c) ≠ [] := by
            rw [hdrop]
            exact List.cons_ne_nil c extra
          simpa [hdrop] using List.head_dropWhile_not (fun c => !isBlank c) hne
        simpa using hc
  · rintro ⟨hspelling, hextra⟩
    exact ofOpener?_eq_some hspelling hextra

end Dialect

namespace Markdown

namespace Region

/-- The position just past the closing fence. -/
def stop (r : Region) : Nat := r.bodyStart + r.body.length + fence.length

/-- A region as it is written, from the opening fence to the closing one. -/
def text (r : Region) : List Char := fence ++ (r.info ++ ('\n' :: (r.body ++ fence)))

/-- A region stands in a document where it says, its opening line starts with the tag of its
dialect, and its body holds no fence. -/
structure StandsIn (document : List Char) (r : Region) : Prop where
  written : ∃ before after, document = before ++ (r.text ++ after) ∧ before.length = r.start
  tagged : r.dialect.Tagged r.info
  info_line : '\n' ∉ r.info
  body_unfenced : ¬ fence <:+: r.body

end Region

/-- A run of exactly three backticks at a position of a document that has all that an opening fence
needs: a tag directly behind it, the end of its line, and a fence below. A tag starts with a letter,
so that the run ends with the third backtick. -/
inductive Opening : List Char → Nat → Prop where
  | intro {before info below} {d : Dialect} (apart : before.getLast? ≠ some '`')
      (tagged : d.Tagged info) (line : '\n' ∉ info) (closed : fence <:+: below) :
      Opening (before ++ (fence ++ (info ++ ('\n' :: below)))) before.length

/-- A list of regions is that of a document: each stands in it, in order and without overlap; an
opening run that does not lie inside one of them opens one; and the scan by offsets ends with them,
all its slices and theirs being cut between characters. -/
structure RegionsExact (document : List Char) (found : List Region) : Prop where
  stand : ∀ r ∈ found, r.StandsIn document
  ordered : found.Pairwise fun a b => a.stop ≤ b.start
  complete : ∀ start, Opening document start →
    (∀ r ∈ found, ¬ (r.start < start ∧ start < r.stop)) → ∃ r ∈ found, r.start = start
  scanned : scanFrom? (document.length + 1) document 0 = some (found.map (Region.spanIn document))
  cut : ∀ r ∈ found,
    sliceTo? document (r.spanIn document).start = some (document.take r.start) ∧
      slice? document (r.spanIn document).bodyStart (r.spanIn document).bodyStop = some r.body

theorem start_le_of_mem {pos : Nat} {rest : List Char} {r : Region}
    (h : r ∈ regionsFrom pos rest) : pos ≤ r.start := by
  fun_induction regionsFrom pos rest with
  | case1 => cases h
  | case2 => cases h
  | case3 pos rest before opened hopen start info below hline hd =>
    rename_i ih
    have hle := ih h
    omega
  | case4 => cases h
  | case5 pos rest before opened hopen start info below hline d hd body after hclose =>
    rename_i region ih
    rcases List.mem_cons.mp h with rfl | h
    · exact Nat.le_add_right pos before.length
    · have hle := ih h
      omega

theorem ordered_regionsFrom (pos : Nat) (rest : List Char) :
    (regionsFrom pos rest).Pairwise fun a b => a.stop ≤ b.start := by
  fun_induction regionsFrom pos rest with
  | case1 => exact List.Pairwise.nil
  | case2 => exact List.Pairwise.nil
  | case3 => assumption
  | case4 => exact List.Pairwise.nil
  | case5 pos rest before opened hopen start info below hline d hd body after hclose =>
    rename_i region ih
    exact List.pairwise_cons.mpr ⟨fun r hr => start_le_of_mem hr, ih⟩

theorem standsIn_of_mem {document done rest : List Char} (h : document = done ++ rest) {r : Region}
    (hr : r ∈ regionsFrom done.length rest) : r.StandsIn document := by
  generalize hpos : done.length = pos at hr
  fun_induction regionsFrom pos rest generalizing done with
  | case1 => cases hr
  | case2 => cases hr
  | case3 pos rest before opened hopen start info below hline hd =>
    rename_i ih
    exact ih (eq_append_of_found h hopen) (by simp only [List.length_append, hpos, start]) hr
  | case4 => cases hr
  | case5 pos rest before opened hopen start info below hline d hd body after hclose =>
    rename_i region ih
    have hnext := eq_append_of_found h hopen
    have hunder := eq_append_of_found hnext hline
    have hafter := eq_append_of_found hunder hclose
    rcases List.mem_cons.mp hr with rfl | hr
    · constructor
      case written =>
        refine ⟨done ++ before, after, ?_, by simp only [List.length_append, hpos, start, region]⟩
        rw [hafter]
        simp only [Region.text, List.append_assoc, List.cons_append, List.nil_append, region]
      case tagged => exact Dialect.ofOpener?_eq_some_iff.mp hd
      case info_line =>
        intro hmem
        exact not_infix_of_cut? (by decide) hline ((List.singleton_infix_iff _ _).mpr hmem)
      case body_unfenced => exact not_infix_of_cut? (by decide) hclose
    · exact ih hafter (by simp only [List.length_append, List.length_singleton, hpos, start]) hr

/-- The first fence of a text is a given run of three backticks, or it ends before that run. -/
theorem first_fence {before tail first opened : List Char} (apart : before.getLast? ≠ some '`')
    (hcut : cut? fence (before ++ (fence ++ tail)) = some (first, opened)) :
    (first = before ∧ opened = tail) ∨
      ∃ between, before = first ++ (fence ++ between) ∧ opened = between ++ (fence ++ tail) ∧
        between.getLast? ≠ some '`' := by
  obtain ⟨first', rest, hcut', hle⟩ := exists_cut?_of_append fence before tail
  obtain ⟨rfl, rfl⟩ := Prod.mk.inj (Option.some.inj (hcut'.symm.trans hcut))
  have htext := eq_append_of_cut? hcut
  rw [List.append_assoc] at htext
  rcases List.append_eq_append_iff.mp htext with ⟨x, rfl, hx⟩ | ⟨x, rfl, hx⟩
  · obtain rfl : x = [] := by
      rw [List.length_append] at hle
      exact List.length_eq_zero_iff.mp (by omega)
    refine Or.inl ⟨List.append_nil before, ?_⟩
    exact (List.append_cancel_left hx).symm
  · rcases List.append_eq_append_iff.mp hx with ⟨y, rfl, rfl⟩ | ⟨y, hfence, -⟩
    · refine Or.inr ⟨y, rfl, rfl, ?_⟩
      intro hlast
      rw [List.getLast?_append, List.getLast?_append, hlast] at apart
      exact apart rfl
    · cases hlast : x.getLast? with
      | none =>
        obtain rfl := List.getLast?_eq_none_iff.mp hlast
        exact Or.inl ⟨(List.append_nil first').symm, List.append_cancel_left hx⟩
      | some c =>
        -- The last backtick before the run would belong to the first fence.
        have hmem : c ∈ fence := by
          rw [hfence]
          exact List.mem_append_left y (List.mem_of_getLast? hlast)
        obtain rfl : c = '`' := by simpa [fence] using hmem
        rw [List.getLast?_append, hlast] at apart
        exact absurd rfl apart

/-- The first newline behind a fence that is no opening one comes before a given run, or it is the
one that ends the line of the run. -/
theorem first_newline {between info below line under : List Char} (hline : '\n' ∉ info)
    (hcut : cut? ['\n'] (between ++ (fence ++ (info ++ '\n' :: below))) = some (line, under)) :
    (∃ more, between = line ++ '\n' :: more ∧
        under = more ++ (fence ++ (info ++ '\n' :: below))) ∨
      (line = between ++ (fence ++ info) ∧ under = below) := by
  by_cases hmem : '\n' ∈ between
  · obtain ⟨head, more, rfl, hhead⟩ := List.eq_append_cons_of_mem hmem
    rw [List.append_assoc, List.cons_append, cut?_singleton hhead] at hcut
    obtain ⟨rfl, rfl⟩ := Prod.mk.inj (Option.some.inj hcut)
    exact Or.inl ⟨more, rfl, rfl⟩
  · have hall : '\n' ∉ between ++ (fence ++ info) := by
      intro h
      rcases List.mem_append.mp h with h | h
      · exact hmem h
      · rcases List.mem_append.mp h with h | h
        · exact absurd h (by decide)
        · exact hline h
    rw [← List.append_assoc fence, ← List.append_assoc, cut?_singleton hall] at hcut
    obtain ⟨rfl, rfl⟩ := Prod.mk.inj (Option.some.inj hcut)
    exact Or.inr ⟨rfl, rfl⟩

/-- A fence comes below the opening line that is found before or at a given run. -/
theorem fence_below {before info below first opened line under : List Char}
    (apart : before.getLast? ≠ some '`') (hinfo : '\n' ∉ info) (closed : fence <:+: below)
    (hopen : cut? fence (before ++ (fence ++ (info ++ '\n' :: below))) = some (first, opened))
    (hline : cut? ['\n'] opened = some (line, under)) : fence <:+: under := by
  rcases first_fence apart hopen with ⟨-, rfl⟩ | ⟨between, -, rfl, -⟩
  · rw [cut?_singleton hinfo] at hline
    obtain ⟨-, rfl⟩ := Prod.mk.inj (Option.some.inj hline)
    exact closed
  · rcases first_newline hinfo hline with ⟨more, -, rfl⟩ | ⟨-, rfl⟩
    · exact ⟨more, info ++ '\n' :: below, by rw [List.append_assoc]⟩
    · exact closed

/-- A given run stands between the start and the end of the region that is found first, or it comes
behind this region. -/
theorem within_or_behind {before info below first opened line under body after : List Char}
    (apart : before.getLast? ≠ some '`') (hinfo : '\n' ∉ info)
    (hopen : cut? fence (before ++ (fence ++ (info ++ '\n' :: below))) = some (first, opened))
    (hline : cut? ['\n'] opened = some (line, under))
    (hclose : cut? fence under = some (body, after)) :
    (first.length ≤ before.length ∧ before.length < first.length + fence.length + line.length + 1 +
        body.length + fence.length) ∨
      ∃ later, after = later ++ (fence ++ (info ++ '\n' :: below)) ∧ later.getLast? ≠ some '`' ∧
        before.length = first.length + fence.length + line.length + 1 + body.length +
          fence.length + later.length := by
  have hfence : fence.length = 3 := rfl
  rcases first_fence apart hopen with ⟨rfl, -⟩ | ⟨between, rfl, rfl, hbetween⟩
  · left
    omega
  · rcases first_newline hinfo hline with ⟨more, rfl, rfl⟩ | ⟨rfl, -⟩
    · have hmore : more.getLast? ≠ some '`' := by
        intro hlast
        rw [List.getLast?_append, List.getLast?_cons, hlast] at hbetween
        exact hbetween rfl
      rcases first_fence hmore hclose with ⟨rfl, -⟩ | ⟨later, rfl, rfl, hlater⟩
      · left
        simp only [List.length_append, List.length_cons]
        omega
      · refine Or.inr ⟨later, rfl, hlater, ?_⟩
        simp only [List.length_append, List.length_cons]
        omega
    · left
      simp only [List.length_append]
      omega

/-- An opening run lies within a region. The induction follows the scan: the run is still to come
until a region starts at it, closes with it, or holds it in its opening line or its body. -/
theorem exists_region_of_opening (pos : Nat) {rest before info below : List Char} {d : Dialect}
    (hrest : rest = before ++ (fence ++ (info ++ '\n' :: below)))
    (apart : before.getLast? ≠ some '`') (tagged : d.Tagged info) (hinfo : '\n' ∉ info)
    (closed : fence <:+: below) :
    ∃ r ∈ regionsFrom pos rest, r.start ≤ pos + before.length ∧ pos + before.length < r.stop := by
  fun_induction regionsFrom pos rest generalizing before with
  | case1 pos rest hopen =>
    have hfence : fence <:+: rest :=
      ⟨before, info ++ '\n' :: below, by rw [hrest, List.append_assoc]⟩
    obtain ⟨first, opened, hcut⟩ := exists_cut?_of_infix hfence
    rw [hopen] at hcut
    cases hcut
  | case2 pos rest first opened hopen hline =>
    subst hrest
    have hmem : '\n' ∈ opened := by
      rcases first_fence apart hopen with ⟨-, rfl⟩ | ⟨between, -, rfl, -⟩ <;> simp
    obtain ⟨line, under, hcut⟩ := exists_cut?_of_infix ((List.singleton_infix_iff _ _).mpr hmem)
    rw [hline] at hcut
    cases hcut
  | case3 pos rest first opened hopen start line under hline hd =>
    rename_i ih
    subst hrest
    rcases first_fence apart hopen with ⟨-, rfl⟩ | ⟨between, rfl, hopened, hbetween⟩
    · rw [cut?_singleton hinfo] at hline
      obtain ⟨rfl, -⟩ := Prod.mk.inj (Option.some.inj hline)
      rw [Dialect.ofOpener?_eq_some_iff.mpr tagged] at hd
      cases hd
    · obtain ⟨r, hr, hstart, hstop⟩ := ih hopened hbetween
      refine ⟨r, hr, ?_, ?_⟩
      all_goals
        simp only [List.length_append, start] at hstart hstop ⊢
        omega
  | case4 pos rest first opened hopen line under hline d' hd hclose =>
    subst hrest
    obtain ⟨body, after, hcut⟩ := exists_cut?_of_infix (fence_below apart hinfo closed hopen hline)
    rw [hclose] at hcut
    cases hcut
  | case5 pos rest first opened hopen start line under hline d' hd body after hclose =>
    rename_i region ih
    subst hrest
    rcases within_or_behind apart hinfo hopen hline hclose with
      ⟨hfrom, hto⟩ | ⟨later, hafter, hlater, hlength⟩
    · refine ⟨region, List.mem_cons_self, ?_, ?_⟩
      all_goals
        simp only [Region.stop, Region.bodyStart, region, start]
        omega
    · obtain ⟨r, hr, hstart, hstop⟩ := ih hafter hlater
      refine ⟨r, List.mem_cons_of_mem region hr, ?_, ?_⟩
      all_goals
        simp only [start] at hstart hstop
        omega

theorem Region.StandsIn.body_eq {document : List Char} {r : Region} (h : r.StandsIn document) :
    (document.drop r.bodyStart).take r.body.length = r.body := by
  obtain ⟨before, after, rfl, hstart⟩ := h.written
  have hsplit : before ++ (r.text ++ after) =
      (before ++ fence ++ r.info ++ ['\n']) ++ (r.body ++ (fence ++ after)) := by
    simp only [Region.text, List.append_assoc, List.cons_append, List.nil_append]
  have hlength : (before ++ fence ++ r.info ++ ['\n']).length = r.bodyStart := by
    simp only [List.length_append, List.length_singleton, Region.bodyStart, hstart]
  rw [hsplit, ← hlength, List.drop_left, List.take_left]

/-- The scan finds exactly the regions of a document. -/
theorem regions_exact (document : List Char) : RegionsExact document (regions document) := by
  have hstand : ∀ r ∈ regions document, r.StandsIn document := fun r hr =>
    standsIn_of_mem (List.nil_append document).symm hr
  constructor
  case stand => exact hstand
  case ordered => exact ordered_regionsFrom 0 document
  case complete =>
    rintro _ ⟨apart, tagged, line, closed⟩ houtside
    obtain ⟨r, hr, hstart, hstop⟩ :=
      exists_region_of_opening 0 rfl apart tagged line closed
    have hinside := houtside r hr
    exact ⟨r, hr, by omega⟩
  case scanned => exact scanFrom?_eq (List.nil_append document).symm (Nat.lt_succ_self _)
  case cut =>
    intro r hr
    refine ⟨sliceTo?_take document r.start, ?_⟩
    have hbody := slice?_take document r.bodyStart r.body.length
    rwa [(hstand r hr).body_eq] at hbody

/-- A run of four backticks opens nothing, a tag behind a blank neither; a fence may close and the
next one open within a line. -/
example : (regions "````ts\n``` ts ```tsx ```ts\nf()``````TS\n```".toList).map
    (fun r => (r.start, r.dialect, String.ofList r.body)) =
      [(14, .tsx, "f()"), (33, .ts, "")] := by
  decide +kernel

end Markdown

end DocSnippets
