import DocSnippets.Markdown.Region
import DocSnippets.Proofs.Text.Slices

/-!
# The scan by offsets

In the UTF-8 form of a document the scan moves an offset forward and cuts slices at it. It comes to
an end, none of its slices is cut inside a character, and it finds the regions of the document.
-/

namespace DocSnippets.Markdown

open Text

/-- A region by its offsets in the UTF-8 form of its document. -/
structure Span where
  start : Nat
  bodyStart : Nat
  bodyStop : Nat
  dialect : Dialect
deriving DecidableEq

/-- The regions from an offset on, found within a number of rounds; none when the rounds do not
suffice or when a slice would be cut inside a character. -/
def scanFrom? : Nat → List Char → Nat → Option (List Span)
  | 0, _, _ => none
  | rounds + 1, document, pos =>
    (sliceFrom? document pos).bind fun rest =>
    match find? fence rest with
    | none => some []
    | some found =>
      let start := pos + found
      let infoStart := start + byteLength fence
      (sliceFrom? document infoStart).bind fun opened =>
      match find? ['\n'] opened with
      | none => some []
      | some newline =>
        (slice? document infoStart (infoStart + newline)).bind fun info =>
        match Dialect.ofOpener? info with
        | none => scanFrom? rounds document infoStart
        | some dialect =>
          let bodyStart := infoStart + newline + 1
          (sliceFrom? document bodyStart).bind fun below =>
          match find? fence below with
          | none => some []
          | some close =>
            let bodyStop := bodyStart + close
            (scanFrom? rounds document (bodyStop + byteLength fence)).map
              ({ start, bodyStart, bodyStop, dialect } :: ·)

/-- The position at which the body of a region starts. -/
def Region.bodyStart (r : Region) : Nat := r.start + fence.length + r.info.length + 1

def Region.spanIn (document : List Char) (r : Region) : Span where
  start := byteLength (document.take r.start)
  bodyStart := byteLength (document.take r.bodyStart)
  bodyStop := byteLength (document.take (r.bodyStart + r.body.length))
  dialect := r.dialect

/-- The cuts that a region makes in its document. -/
theorem spanIn_append {document done before info body after : List Char} {d : Dialect}
    (h : document = done ++ (before ++ (fence ++ (info ++ ('\n' :: (body ++ after)))))) :
    Region.spanIn document { start := done.length + before.length, info, dialect := d, body } =
      { start := byteLength done + byteLength before
        bodyStart := byteLength done + byteLength before + byteLength fence + byteLength info + 1
        bodyStop := byteLength done + byteLength before + byteLength fence + byteLength info + 1 +
          byteLength body
        dialect := d } := by
  have hstart : document = (done ++ before) ++ (fence ++ (info ++ ('\n' :: (body ++ after)))) := by
    rw [h, List.append_assoc]
  have hbody : document = (done ++ before ++ fence ++ info ++ ['\n']) ++ (body ++ after) := by
    simp only [h, List.append_assoc, List.singleton_append]
  have hstop : document = (done ++ before ++ fence ++ info ++ ['\n'] ++ body) ++ after := by
    rw [hbody, ← List.append_assoc]
  have hnewline : byteLength ['\n'] = 1 := by decide
  have htake : document.take (done.length + before.length) = done ++ before := by
    rw [hstart, ← List.length_append, List.take_left]
  have htakebody : document.take (done.length + before.length + fence.length + info.length + 1) =
      done ++ before ++ fence ++ info ++ ['\n'] := by
    rw [hbody]
    exact List.take_left' (by simp only [List.length_append, List.length_singleton])
  have htakestop : document.take (done.length + before.length + fence.length + info.length + 1 +
      body.length) = done ++ before ++ fence ++ info ++ ['\n'] ++ body := by
    rw [hstop]
    exact List.take_left' (by simp only [List.length_append, List.length_singleton])
  simp only [Region.spanIn, Region.bodyStart, htake, htakebody, htakestop, byteLength_append,
    hnewline]

theorem find?_of_cut? {needle text before after : List Char}
    (h : cut? needle text = some (before, after)) :
    find? needle text = some (byteLength before) := by
  rw [find?, h, Option.map_some]

theorem find?_of_cut?_none {needle text : List Char} (h : cut? needle text = none) :
    find? needle text = none := by
  rw [find?, h, Option.map_none]

theorem sliceFrom?_of_eq {document done rest : List Char} {offset : Nat}
    (h : document = done ++ rest) (hoffset : byteLength done = offset) :
    sliceFrom? document offset = some rest := by
  rw [h, ← hoffset, sliceFrom?_append]

/-- What is done once a needle was found, and what is still to come. -/
theorem eq_append_of_found {document done rest needle before after : List Char}
    (h : document = done ++ rest) (hfound : cut? needle rest = some (before, after)) :
    document = (done ++ before ++ needle) ++ after := by
  rw [h, eq_append_of_cut? hfound]
  simp only [List.append_assoc]

theorem slice?_of_found {document done rest needle before after : List Char}
    (h : document = done ++ rest) (hfound : cut? needle rest = some (before, after)) :
    slice? document (byteLength done) (byteLength done + byteLength before) = some before := by
  rw [h, eq_append_of_cut? hfound, List.append_assoc before]
  exact slice?_append done before (needle ++ after)

/-- Each round takes off a fence at least, so that there are fewer rounds than characters. -/
theorem scanFrom?_eq {document done rest : List Char} {rounds : Nat} (h : document = done ++ rest)
    (hrounds : rest.length < rounds) :
    scanFrom? rounds document (byteLength done) =
      some ((regionsFrom done.length rest).map (Region.spanIn document)) := by
  have hnewline : byteLength ['\n'] = 1 := by decide
  generalize hpos : done.length = pos
  fun_induction regionsFrom pos rest generalizing done rounds with
  | case1 pos rest hopen =>
    obtain ⟨rounds, rfl⟩ := Nat.exists_eq_succ_of_ne_zero (Nat.ne_zero_of_lt hrounds)
    simp only [scanFrom?, sliceFrom?_of_eq h rfl, find?_of_cut?_none hopen, Option.bind_some]
    rfl
  | case2 pos rest before opened hopen hline =>
    obtain ⟨rounds, rfl⟩ := Nat.exists_eq_succ_of_ne_zero (Nat.ne_zero_of_lt hrounds)
    have hopened := sliceFrom?_of_eq (eq_append_of_found h hopen) rfl
    simp only [byteLength_append] at hopened
    simp only [scanFrom?, sliceFrom?_of_eq h rfl, find?_of_cut? hopen, hopened,
      find?_of_cut?_none hline, Option.bind_some]
    rfl
  | case3 pos rest before opened hopen start info below hline hd =>
    rename_i ih
    obtain ⟨rounds, rfl⟩ := Nat.exists_eq_succ_of_ne_zero (Nat.ne_zero_of_lt hrounds)
    have hnext := eq_append_of_found h hopen
    have hopened := sliceFrom?_of_eq hnext rfl
    have hinfo := slice?_of_found hnext hline
    have hshorter : opened.length < rounds := by
      have := length_of_cut? hopen
      simp only [fence, List.length_cons] at this
      omega
    have hrest := ih hnext hshorter (by simp only [List.length_append, hpos, start])
    simp only [byteLength_append] at hopened hinfo hrest
    simp only [scanFrom?, sliceFrom?_of_eq h rfl, find?_of_cut? hopen, hopened,
      find?_of_cut? hline, hinfo, hd, hrest, Option.bind_some]
  | case4 pos rest before opened hopen info below hline d hd hclose =>
    obtain ⟨rounds, rfl⟩ := Nat.exists_eq_succ_of_ne_zero (Nat.ne_zero_of_lt hrounds)
    have hnext := eq_append_of_found h hopen
    have hopened := sliceFrom?_of_eq hnext rfl
    have hinfo := slice?_of_found hnext hline
    have hbelow := sliceFrom?_of_eq (eq_append_of_found hnext hline) rfl
    simp only [byteLength_append, hnewline] at hopened hinfo hbelow
    simp only [scanFrom?, sliceFrom?_of_eq h rfl, find?_of_cut? hopen, hopened,
      find?_of_cut? hline, hinfo, hd, hbelow, find?_of_cut?_none hclose, Option.bind_some]
    rfl
  | case5 pos rest before opened hopen start info below hline d hd body after hclose =>
    rename_i region ih
    obtain ⟨rounds, rfl⟩ := Nat.exists_eq_succ_of_ne_zero (Nat.ne_zero_of_lt hrounds)
    have hnext := eq_append_of_found h hopen
    have hopened := sliceFrom?_of_eq hnext rfl
    have hinfo := slice?_of_found hnext hline
    have hunder := eq_append_of_found hnext hline
    have hbelow := sliceFrom?_of_eq hunder rfl
    have hshorter : after.length < rounds := by
      have := length_of_cut? hopen
      have := length_of_cut? hline
      have := length_of_cut? hclose
      simp only [fence, List.length_cons] at *
      omega
    have hrest := ih (eq_append_of_found hunder hclose) hshorter
      (by simp only [List.length_append, List.length_singleton, hpos, start])
    have hdocument : document = done ++ (before ++ (fence ++ (info ++ ('\n' :: (body ++
        (fence ++ after)))))) := by
      rw [h, eq_append_of_cut? hopen, eq_append_of_cut? hline, eq_append_of_cut? hclose]
      simp only [List.append_assoc, List.singleton_append]
    have hspan := spanIn_append (d := d) hdocument
    simp only [byteLength_append, hnewline] at hopened hinfo hbelow hrest
    simp only [scanFrom?, sliceFrom?_of_eq h rfl, find?_of_cut? hopen, hopened,
      find?_of_cut? hline, hinfo, hd, hbelow, find?_of_cut? hclose, hrest, Option.bind_some,
      Option.map_some, List.map_cons]
    rw [hpos] at hspan
    rw [← hspan]

end DocSnippets.Markdown
