import Ehdb.Core.Journal

/-! A text is clean if it is made of whole lines, each blank or a record. An append path that
repairs the tail first keeps the file a clean text with a part of further records at its end. -/

namespace Ehdb.Proof.Journal

open Ehdb.Core ProofKit List
open ReadState (finish)

theorem bind_eq_ok {ε α β : Type} {x : Except ε α} {f} {b : β}
    (h : x >>= f = .ok b) : ∃ a, x = .ok a ∧ f a = .ok b := by
  cases x with
  | error e => cases h
  | ok a => exact ⟨a, rfl, h⟩

def IsLine (line : Bytes) : Prop :=
  ∃ text, line = text ++ [newline] ∧ newline ∉ text

variable {text : Bytes}

theorem lines_line (h : newline ∉ text) (rest : Bytes) :
    lines (text ++ newline :: rest) = (text ++ [newline]) :: lines rest := by
  induction text with
  | nil => simp [lines]
  | cons b text ih =>
    obtain ⟨other, later⟩ := not_or.1 (mt mem_cons.2 h)
    rw [cons_append, lines, if_neg (Ne.symm other), ih later]
    rfl

theorem lines_part (h : newline ∉ text) (some_text : text ≠ []) : lines text = [text] := by
  induction text with
  | nil => exact absurd rfl some_text
  | cons b text ih =>
    obtain ⟨other, later⟩ := not_or.1 (mt mem_cons.2 h)
    rw [lines, if_neg (Ne.symm other)]
    cases text with
    | nil => rfl
    | cons c text => rw [ih later (cons_ne_nil _ _)]

variable {ls : List Bytes}

theorem lines_flatten (h : ∀ l ∈ ls, IsLine l) (rest : Bytes) :
    lines (ls.flatten ++ rest) = ls ++ lines rest := by
  induction ls with
  | nil => rfl
  | cons line ls ih =>
    obtain ⟨text, rfl, one⟩ := h line mem_cons_self
    have later := ih fun l mem => h l (.tail _ mem)
    rw [flatten_cons, append_assoc, append_assoc, singleton_append, lines_line one, later]
    rfl

theorem exists_lines (bytes : Bytes) :
    ∃ (ls : List Bytes) (rest : Bytes), bytes = ls.flatten ++ rest ∧ (∀ l ∈ ls, IsLine l) ∧
      newline ∉ rest := by
  induction bytes with
  | nil => exact ⟨[], [], rfl, nofun, not_mem_nil⟩
  | cons b bytes ih =>
    obtain ⟨ls, rest, rfl, whole, part⟩ := ih
    by_cases same : b = newline
    · subst same
      refine ⟨[newline] :: ls, rest, rfl, ?_, part⟩
      intro l mem
      rcases mem_cons.1 mem with rfl | mem
      · exact ⟨[], rfl, not_mem_nil⟩
      · exact whole l mem
    · cases ls with
      | nil => exact ⟨[], b :: rest, rfl, nofun, by simp [part, Ne.symm same]⟩
      | cons line ls =>
        obtain ⟨text, rfl, one⟩ := whole line mem_cons_self
        refine ⟨(b :: (text ++ [newline])) :: ls, rest, rfl, ?_, part⟩
        intro l mem
        rcases mem_cons.1 mem with rfl | mem
        · exact ⟨b :: text, rfl, by simp [one, Ne.symm same]⟩
        · exact whole l (.tail _ mem)

theorem trimNewline_line (h : newline ∉ text) :
    trimNewline (text ++ [newline]) = trimNewline text := by
  have kept : stripSuffix newline text = text := by
    unfold stripSuffix
    split
    · rename_i last
      exact absurd (mem_of_getLast? last) h
    · rfl
  have cut : stripSuffix newline (text ++ [newline]) = text := by
    simp [stripSuffix]
  rw [trimNewline, trimNewline, kept, cut]

section Read

variable {E S : Type} {K : JournalKind E S}

def readFrom (K : JournalKind E S) (st : ReadState E) (ls : List Bytes) : Result (ReadState E) :=
  ls.foldlM (readLine K.codec K.decodeError) st

theorem readJsonl_some (bytes : Bytes) : readJsonl K.codec K.decodeError (some bytes) =
      (readFrom K (.start E) (lines bytes)).map finish := rfl

variable {st st' : ReadState E}

theorem readFrom_append
    (read : readFrom K st ls = .ok st') (more : List Bytes) :
    readFrom K st (ls ++ more) = readFrom K st' more := by
  unfold readFrom at read ⊢
  rw [foldlM_append, read]
  rfl

variable {line : Bytes}

theorem readFrom_cons
    (read : readLine K.codec K.decodeError st line = .ok st') (more : List Bytes) :
    readFrom K st (line :: more) = readFrom K st' more := by
  unfold readFrom
  rw [foldlM_cons, read]
  rfl

/-- The bytes are whole lines, and they read back as `es`. -/
def Clean (K : JournalKind E S) (bytes : Bytes) (es : List E) : Prop :=
  ∃ ls st, bytes = ls.flatten ∧ (∀ l ∈ ls, IsLine l) ∧ readFrom K (.start E) ls = .ok st ∧
    st.torn = none ∧ st.entries.map Prod.snd = es

def Opens (K : JournalKind E S) (file : Option Bytes) (es : List E) : Prop :=
  ∃ read, readJsonl K.codec K.decodeError file = .ok read ∧ read.entries.map Prod.snd = es

theorem readFrom_concat
    (h : readFrom K st (ls ++ [line]) = .ok st') : ∃ between, readFrom K st ls = .ok between ∧
      readLine K.codec K.decodeError between line = .ok st' := by
  rw [readFrom, foldlM_append] at h
  obtain ⟨between, earlier, h⟩ := bind_eq_ok h
  obtain ⟨_, last, h⟩ := bind_eq_ok h
  cases h
  exact ⟨between, earlier, last⟩

theorem finish_entries (st : ReadState E) : st.finish.entries = st.entries := by
  unfold finish
  split <;> rfl

variable {bytes : Bytes} {es : List E}

theorem text_of_record {e} (part : text <+: K.codec.toVec e) (some_text : text ≠ []) :
    newline ∉ text ∧ trimNewline text = text ∧ text.all isAsciiWhitespace = false := by
  obtain ⟨one, other⟩ := K.codec.toVec_one_line e
  have absent : newline ∉ text ∧ carriageReturn ∉ text :=
    ⟨fun mem => one (part.subset mem), fun mem => other (part.subset mem)⟩
  have kept (b : UInt8) (absent : b ∉ text) : stripSuffix b text = text := by
    unfold stripSuffix
    split
    · rename_i last
      exact absurd (mem_of_getLast? last) absent
    · rfl
  refine ⟨absent.1, by rw [trimNewline, kept newline absent.1, kept carriageReturn absent.2], ?_⟩
  obtain ⟨rest, opens⟩ := K.codec.toVec_opens e
  cases text with
  | nil => exact absurd rfl some_text
  | cons b text =>
    rw [opens] at part
    obtain ⟨rfl, -⟩ := cons_prefix_cons.1 part
    rfl

theorem toVec_ne_nil (e : E) : K.codec.toVec e ≠ [] := by
  obtain ⟨rest, opens⟩ := K.codec.toVec_opens e
  rw [opens]
  exact cons_ne_nil _ _

variable {st : ReadState E}

theorem readLine_record {e} (is_exact : K.codec.exact e) (fresh : st.torn = none)
    (trim : trimNewline line = K.codec.toVec e) :
    ∃ st', readLine K.codec K.decodeError st line = .ok st' ∧ st'.torn = none ∧
      st'.entries.map Prod.snd = st.entries.map Prod.snd ++ [e] := by
  obtain ⟨-, -, not_blank⟩ := text_of_record (prefix_refl _) (toVec_ne_nil (K := K) e)
  refine ⟨{ st with
    entries := st.entries ++ [(st.index + 1, e)], offset := st.offset + line.length,
    lastByte := line.getLast?, index := st.index + 1 }, ?_, fresh, by simp⟩
  unfold readLine
  simp only [trim, not_blank, fresh, K.codec.fromSlice_toVec e is_exact]
  rfl

theorem readLine_torn {e} (is_exact : K.codec.exact e) (fresh : st.torn = none)
    (part : text <+: K.codec.toVec e) (some_text : text ≠ []) (short : text ≠ K.codec.toVec e) :
    ∃ st', readLine K.codec K.decodeError st text = .ok st' ∧ st'.entries = st.entries ∧
      ∃ index message, st'.torn = some (index, st.offset, message) := by
  obtain ⟨-, trim, not_blank⟩ := text_of_record part some_text
  obtain ⟨message, eof⟩ := K.codec.fromSlice_torn e is_exact text part some_text short
  refine ⟨{ st with
    offset := st.offset + text.length, lastByte := text.getLast?, index := st.index + 1,
    torn := some (st.index + 1, st.offset, message) }, ?_, rfl, _, _, rfl⟩
  unfold readLine
  simp only [trim, not_blank, fresh, eof]
  rfl

theorem readFrom_recordLines (is_exact : ∀ e ∈ es, K.codec.exact e)
    (fresh : st.torn = none) : ∃ ls st', recordLines K es = ls.flatten ∧ (∀ l ∈ ls, IsLine l) ∧
      readFrom K st ls = .ok st' ∧ st'.torn = none ∧
      st'.entries.map Prod.snd = st.entries.map Prod.snd ++ es := by
  induction es generalizing st with
  | nil => exact ⟨[], st, rfl, nofun, rfl, fresh, by simp⟩
  | cons e es ih =>
    obtain ⟨one, trim, -⟩ := text_of_record (prefix_refl _) (toVec_ne_nil (K := K) e)
    obtain ⟨st', read, fresh', entries⟩ := readLine_record (is_exact e mem_cons_self) fresh
      ((trimNewline_line one).trans trim)
    obtain ⟨ls, st'', lines_eq, whole, reads, torn, entries'⟩ :=
      ih (fun x mem => is_exact x (.tail _ mem)) fresh'
    refine ⟨(K.codec.toVec e ++ [newline]) :: ls, st'', ?_, ?_, ?_, torn, ?_⟩
    · rw [flatten_cons, ← lines_eq]
      simp [recordLines]
    · intro l mem
      rcases mem_cons.1 mem with rfl | mem
      · exact ⟨_, rfl, one⟩
      · exact whole l mem
    · rw [readFrom_cons read, reads]
    · rw [entries', entries, append_assoc]
      rfl

theorem Clean.append {es new} (clean : Clean K bytes es)
    (is_exact : ∀ e ∈ new, K.codec.exact e) : Clean K (bytes ++ recordLines K new) (es ++ new) := by
  obtain ⟨ls, st, rfl, whole, read, torn, rfl⟩ := clean
  obtain ⟨ls', st', lines_eq, whole', read', torn', entries⟩ := readFrom_recordLines is_exact torn
  refine ⟨ls ++ ls', st', by rw [flatten_append, lines_eq], ?_, ?_, torn', entries⟩
  · intro l mem
    exact (mem_append.1 mem).elim (whole l) (whole' l)
  · rw [readFrom_append read, read']

theorem Clean.append_record {e} (clean : Clean K bytes es) (is_exact : K.codec.exact e) :
    Clean K (bytes ++ (K.codec.toVec e ++ [newline])) (es ++ [e]) := by
  have all : ∀ x ∈ [e], K.codec.exact x := fun x mem => mem_singleton.1 mem ▸ is_exact
  simpa [recordLines] using clean.append all

theorem readLine_cases {st' buf} (h : readLine K.codec K.decodeError st buf = .ok st') :
    st'.offset = st.offset + buf.length ∧ st'.lastByte = buf.getLast? ∧
      ((st'.entries = st.entries ∧ st'.torn = st.torn) ∨ (st.torn = none ∧ st'.torn = none) ∨
        (st.torn = none ∧ st'.entries = st.entries ∧
          ∃ index message, st'.torn = some (index, st.offset, message))) := by
  unfold readLine at h
  dsimp only at h
  split at h
  · cases h
    exact ⟨rfl, rfl, .inl ⟨rfl, rfl⟩⟩
  · split at h
    · cases h
    · rename_i fresh
      split at h
      · cases h
        exact ⟨rfl, rfl, .inr (.inl ⟨fresh, fresh⟩)⟩
      · cases h
        exact ⟨rfl, rfl, .inr (.inr ⟨fresh, rfl, _, _, rfl⟩)⟩
      · cases h

structure Folded (K : JournalKind E S) (ls : List Bytes) (st : ReadState E) : Prop where
  offset : st.offset = ls.flatten.length
  torn : ∀ index start message, st.torn = some (index, start, message) →
    ∃ good st', good <+: ls.dropLast ∧ start = good.flatten.length ∧
      readFrom K (.start E) good = .ok st' ∧ st'.torn = none ∧ st'.entries = st.entries

theorem folded (h : readFrom K (.start E) ls = .ok st) : Folded K ls st := by
  induction ls using reverseRecOn generalizing st with
  | nil =>
    cases h
    exact ⟨rfl, nofun⟩
  | append_singleton ls buf ih =>
    obtain ⟨st', earlier, last⟩ := readFrom_concat h
    obtain ⟨offset, torn⟩ := ih earlier
    obtain ⟨offset', -, same | ⟨-, fresh⟩ | ⟨fresh, entries, index, message, now⟩⟩ :=
      readLine_cases last
    · refine ⟨by simp [offset', offset], ?_⟩
      intro i start m is
      obtain ⟨good, st₀, before, at_start, read, clean, entries⟩ := torn i start m (same.2 ▸ is)
      refine ⟨good, st₀, ?_, at_start, read, clean, entries.trans same.1.symm⟩
      rw [dropLast_concat]
      exact before.trans ( dropLast_prefix _)
    · exact ⟨by simp [offset', offset], fun _ _ _ is => by rw [fresh] at is; cases is⟩
    · refine ⟨by simp [offset', offset], ?_⟩
      intro i start m is
      rw [now] at is
      cases is
      refine ⟨ls, st', ?_, offset, earlier, fresh, entries.symm⟩
      simp

/-- What a crash leaves of an append: nothing, a front part, or the line without its end. -/
inductive CutText (K : JournalKind E S) : Bytes → List E → Prop where
  | clean {whole known} : Clean K whole known → CutText K whole known
  | torn {whole known e part} : Clean K whole known → K.codec.exact e → part <+: K.codec.toVec e →
      part ≠ [] → part ≠ K.codec.toVec e → CutText K (whole ++ part) known
  | whole {whole known e} : Clean K whole known → K.codec.exact e →
      CutText K (whole ++ K.codec.toVec e) (known ++ [e])

theorem readJsonl_last {st'} (whole : ∀ l ∈ ls, IsLine l)
    (read : readFrom K (.start E) ls = .ok st) (one : newline ∉ text) (some_text : text ≠ [])
    (last : readLine K.codec K.decodeError st text = .ok st') :
    readJsonl K.codec K.decodeError (some (ls.flatten ++ text)) = .ok st'.finish := by
  rw [readJsonl_some, lines_flatten whole, lines_part one some_text, readFrom_append read,
    readFrom_cons last]
  rfl

theorem CutText.reads (h : CutText K bytes es) :
    ∃ read, readJsonl K.codec K.decodeError (some bytes) = .ok read ∧
      read.entries.map Prod.snd = es ∧
      ∀ len n, read.repair.truncateTo = some len → len ≤ n → CutText K (bytes.take n) es := by
  cases h with
  | clean clean =>
    obtain ⟨ls, st, rfl, whole, read, fresh, rfl⟩ := clean
    have split : lines ls.flatten = ls := by simpa [lines] using lines_flatten whole []
    refine ⟨st.finish, by rw [readJsonl_some, split, read]; rfl, by rw [finish_entries], ?_⟩
    intro len n cut
    simp [finish, fresh] at cut
  | @torn _ _ e text clean is_exact part some_text short =>
    have before := clean
    obtain ⟨ls, st, rfl, whole, read, fresh, rfl⟩ := clean
    obtain ⟨one, -⟩ := text_of_record part some_text
    obtain ⟨st', last, entries, index, message, torn⟩ :=
      readLine_torn is_exact fresh part some_text short
    refine ⟨_, readJsonl_last whole read one some_text last, by rw [finish_entries, entries], ?_⟩
    intro len n cut le
    simp only [finish, torn, Option.some.injEq] at cut
    rw [← cut, (folded read).offset] at le
    rw [take_append, take_of_length_le le]
    have shorter := take_prefix (n - ls.flatten.length) text
    by_cases none : take (n - ls.flatten.length) text = []
    · rw [none, append_nil]
      exact .clean before
    · refine .torn before is_exact (shorter.trans part) none fun same => short ?_
      exact part.eq_of_length_le (same ▸ shorter.length_le)
  | whole clean is_exact =>
    obtain ⟨ls, st, rfl, whole, read, fresh, rfl⟩ := clean
    obtain ⟨one, trim, -⟩ := text_of_record (prefix_refl _) (toVec_ne_nil (K := K) _)
    obtain ⟨st', last, torn, entries⟩ := readLine_record is_exact fresh trim
    refine ⟨_, readJsonl_last whole read one (toVec_ne_nil _) last,
      by rw [finish_entries, entries], ?_⟩
    intro len n cut
    simp [finish, torn] at cut

theorem CutText.opens (h : CutText K bytes es) : Opens K (some bytes) es := by
  obtain ⟨read, reads, entries, -⟩ := h.reads
  exact ⟨read, reads, entries⟩

theorem Clean.opens (clean : Clean K bytes es) : Opens K (some bytes) es :=
  (CutText.clean clean).opens

theorem Clean.cutText {e} (clean : Clean K bytes es) (is_exact : K.codec.exact e)
    (part : text <+: K.codec.toVec e ++ [newline]) :
    CutText K (bytes ++ text) (es ++ if K.codec.toVec e <+: text then [e] else []) := by
  rcases prefix_concat_iff.1 part with rfl | within
  · rw [if_pos (prefix_append _ _)]
    exact .clean (clean.append_record is_exact)
  · by_cases whole : text = K.codec.toVec e
    · rw [whole, if_pos prefix_rfl]
      exact .whole clean is_exact
    · rw [if_neg fun long => whole (within.eq_of_length_le long.length_le), append_nil]
      by_cases none : text = []
      · rw [none, append_nil]
        exact .clean clean
      · exact .torn clean is_exact within none whole

theorem Clean.opens_part {bytes part es new} (clean : Clean K bytes es)
    (is_exact : ∀ e ∈ new, K.codec.exact e) (is_part : part <+: recordLines K new) :
    ∃ done, done <+: new ∧ Opens K (some (bytes ++ part)) (es ++ done) := by
  induction new generalizing bytes es part with
  | nil =>
    obtain rfl := prefix_nil.1 is_part
    exact ⟨[], prefix_rfl, by simpa using clean.opens⟩
  | cons e new ih =>
    have first := is_exact e mem_cons_self
    have opened : recordLines K (e :: new) = K.codec.toVec e ++ [newline] ++ recordLines K new := by
      simp [recordLines]
    rw [opened] at is_part
    -- The part ends within the line of the first record, or goes past its newline.
    rcases prefix_or_prefix_of_prefix is_part (prefix_append _ _) with within | ⟨more, rfl⟩
    · refine ⟨_, ?_, (clean.cutText first within).opens⟩
      split <;> simp
    · obtain ⟨done, whole, opens⟩ :=
        ih (clean.append_record first) (fun x mem => is_exact x (.tail _ mem))
        ((prefix_append_right_inj _).1 is_part)
      exact ⟨e :: done, cons_prefix_cons.2 ⟨rfl, whole⟩, by simpa [recordLines] using opens⟩

/-- Carrying out the repair leaves a clean journal of `es`. -/
def Mends (K : JournalKind E S) (file : Option Bytes) (repair : TailRepair) (es : List E) : Prop :=
  match repair.truncateTo with
  | some len => ∃ bytes, file = some bytes ∧ len ≤ bytes.length ∧ Clean K (bytes.take len) es
  | none =>
    if repair.appendNewline then ∃ bytes, file = some bytes ∧ Clean K (bytes ++ [newline]) es
    else Clean K (file.getD []) es

theorem readLine_newline (one : newline ∉ text) {st'}
    (h : readLine K.codec K.decodeError st text = .ok st') :
    ∃ st'', readLine K.codec K.decodeError st (text ++ [newline]) = .ok st'' ∧
      st''.torn = st'.torn ∧ st''.entries = st'.entries := by
  unfold readLine at h ⊢
  rw [trimNewline_line one]
  dsimp only at h ⊢
  split at h
  · rename_i blank
    rw [if_pos blank]
    cases h
    exact ⟨_, rfl, rfl, rfl⟩
  · rename_i not_blank
    rw [if_neg not_blank]
    split at h
    · cases h
    · split at h
      · cases h
        exact ⟨_, rfl, rfl, rfl⟩
      · cases h
        exact ⟨_, rfl, rfl, rfl⟩
      · cases h

theorem Clean.newline (clean : Clean K bytes es) : Clean K (bytes ++ [newline]) es := by
  obtain ⟨ls, st, rfl, whole, read, torn, rfl⟩ := clean
  have blank : readLine K.codec K.decodeError st [Core.newline] = .ok { st with
      offset := st.offset + 1, lastByte := some Core.newline, index := st.index + 1 } := rfl
  refine ⟨ls ++ [[Core.newline]], _, by simp, ?_,
    (readFrom_append read _).trans (readFrom_cons blank []),
    torn, rfl⟩
  intro l mem
  rcases mem_append.1 mem with mem | mem
  · exact whole l mem
  · exact ⟨[], mem_singleton.1 mem, not_mem_nil⟩

theorem Folded.clean (h : Folded K ls st)
    (whole : ∀ l ∈ ls.dropLast, IsLine l) (front : ls.dropLast.flatten <+: bytes)
    {index start message} (torn : st.torn = some (index, start, message)) :
    start ≤ bytes.length ∧ Clean K (bytes.take start) (st.entries.map Prod.snd) := by
  obtain ⟨good, st', ⟨others, eq⟩, rfl, read, clean, entries⟩ := h.torn index start message torn
  obtain ⟨rest, rfl⟩ : good.flatten <+: bytes := by
    refine List.IsPrefix.trans ?_ front
    exact ⟨others.flatten, by rw [← eq, flatten_append]⟩
  refine ⟨by simp, good, st', by simp, ?_, read, clean, by rw [entries]⟩
  intro l mem
  exact whole l (eq ▸ mem_append_left _ mem)

theorem mends_of_rest {rest} (whole : ∀ l ∈ ls, IsLine l)
    (one : Core.newline ∉ rest) (some_rest : rest ≠ [])
    (read : readFrom K (.start E) (ls ++ [rest]) = .ok st) :
    Mends K (some (ls.flatten ++ rest)) st.finish.repair (st.entries.map Prod.snd) := by
  obtain ⟨st', earlier, last⟩ := readFrom_concat read
  obtain ⟨-, lastByte, kind⟩ := readLine_cases last
  cases torn : st.torn with
  | some t =>
    obtain ⟨index, start, message⟩ := t
    simp only [finish, torn, Mends]
    have front : (ls ++ [rest]).dropLast = ls := dropLast_concat
    refine ⟨_, rfl, (folded read).clean ?_ ?_ torn⟩
    · rw [front]
      exact whole
    · rw [front]
      exact prefix_append _ _
  | none =>
    have fresh : st'.torn = none := by
      rcases kind with ⟨-, same⟩ | ⟨fresh, -⟩ | ⟨fresh, -⟩
      · exact same.symm.trans torn
      · exact fresh
      · exact fresh
    have mark : st.lastByte.any (· != Core.newline) = true := by
      have other : rest.getLast some_rest ≠ Core.newline :=
        fun eq => one (eq ▸ getLast_mem some_rest)
      simp [lastByte, getLast?_eq_some_getLast some_rest, other]
    obtain ⟨st'', read', torn', entries⟩ := readLine_newline one last
    simp only [finish, torn, Mends, mark, if_true]
    refine ⟨_, rfl, ls ++ [rest ++ [Core.newline]], st'', by simp, ?_,
      (readFrom_append earlier _).trans (readFrom_cons read' []), torn'.trans torn, by rw [entries]⟩
    intro l mem
    rcases mem_append.1 mem with mem | mem
    · exact whole l mem
    · exact ⟨rest, mem_singleton.1 mem, one⟩

theorem mends_of_read {file read} (h : readJsonl K.codec K.decodeError file = .ok read) :
    Mends K file read.repair (read.entries.map Prod.snd) := by
  cases file with
  | none =>
    cases h
    exact ⟨[], .start E, rfl, nofun, rfl, rfl, rfl⟩
  | some bytes =>
    obtain ⟨ls, rest, rfl, whole, one⟩ := exists_lines bytes
    rw [readJsonl_some, lines_flatten whole] at h
    obtain ⟨st, reads, h⟩ := bind_eq_ok (f := fun st : ReadState E => .ok st.finish) (b := read) h
    cases h
    rw [finish_entries]
    by_cases ended : rest = []
    · subst ended
      rw [lines, append_nil] at reads
      rw [append_nil]
      have front : ls.dropLast <+: ls := dropLast_prefix ls
      cases torn : st.torn with
      | some t =>
        obtain ⟨index, start, message⟩ := t
        simp only [finish, torn, Mends]
        have flat : ls.dropLast.flatten <+: ls.flatten := by
          obtain ⟨last, eq⟩ := front
          exact ⟨last.flatten, by rw [← flatten_append, eq]⟩
        exact ⟨_, rfl, (folded reads).clean (fun l mem => whole l (front.subset mem)) flat torn⟩
      | none =>
        have clean : Clean K ls.flatten (st.entries.map Prod.snd) :=
          ⟨ls, st, rfl, whole, reads, torn, rfl⟩
        simp only [finish, torn, Mends]
        split
        · exact ⟨_, rfl, clean.newline⟩
        · exact clean
    · rw [lines_part one ended] at reads
      exact mends_of_rest whole one ended reads

end Read

section Append

variable {E S : Type} {K : JournalKind E S} {c : JournalCell S} {es : List E}

/-- The journal after opening, with the repair of its tail still to be made. -/
structure Ready (K : JournalKind E S) (c : JournalCell S) (es : List E) : Prop where
  opens : Opens K c.file es
  mends : Mends K c.file c.repair es
  inner : es.foldlM K.apply K.empty = .ok c.inner

/-- The journal with no repair left to make. -/
structure Tidy (K : JournalKind E S) (c : JournalCell S) (es : List E) : Prop where
  repair : c.repair = .default
  clean : Clean K (c.file.getD []) es
  inner : es.foldlM K.apply K.empty = .ok c.inner

variable {file : Option Bytes}

theorem Clean.opens_getD (clean : Clean K (file.getD []) es) : Opens K file es := by
  cases file with
  | none =>
    obtain ⟨read, is, entries⟩ := clean.opens
    cases is
    exact ⟨_, rfl, entries⟩
  | some bytes => exact clean.opens

theorem Tidy.ready (tidy : Tidy K c es) : Ready K c es := by
  refine ⟨tidy.clean.opens_getD, ?_, tidy.inner⟩
  simp only [Mends, tidy.repair, TailRepair.default]
  exact tidy.clean

theorem ready_of_open (h : openJournal K file = .ok c) :
    ∃ es, Ready K c es ∧ c.stray = false ∧ Opens K file es := by
  obtain ⟨read, reads, h⟩ := bind_eq_ok h
  obtain ⟨inner, applied, h⟩ := bind_eq_ok h
  cases h
  exact ⟨_, ⟨⟨read, reads, rfl⟩, mends_of_read reads, applied⟩, rfl, read, reads, rfl⟩

theorem Opens.openJournal {inner} (opens : Opens K file es)
    (applied : es.foldlM K.apply K.empty = .ok inner) :
    ∃ c, openJournal K file = .ok c ∧ c.inner = inner := by
  obtain ⟨read, reads, rfl⟩ := opens
  refine ⟨⟨file, inner, read.tornTailSkipped, read.repair, false⟩, ?_, rfl⟩
  simp only [Core.openJournal, reads, bind, Except.bind, applied]
  rfl

/-- Between two steps of a call that adds `new`: the file reads as the records of the log and a part
of the new ones, and unless it has stray bytes it is as the log needs it. -/
structure Sound (K : JournalKind E S) (es new : List E) (c : JournalCell S) : Prop where
  opens : ∃ done, done <+: new ∧ Opens K c.file (es ++ done)
  ready : c.stray = false → Ready K c es

variable {new : List E}

theorem Ready.sound (ready : Ready K c es) : Sound K es new c :=
  ⟨⟨[], nil_prefix, by simpa using ready.opens⟩, fun _ => ready⟩

/-- The journal in the middle of an append, with `part` of the line written. -/
structure Partly (K : JournalKind E S) (es : List E) (part : Bytes) (c : JournalCell S) : Prop where
  repair : c.repair = .default
  file : ∃ bytes, c.file = some (bytes ++ part) ∧ Clean K bytes es
  inner : es.foldlM K.apply K.empty = .ok c.inner
  stray : c.stray = false → part = []

theorem Partly.sound {part} (h : Partly K es part c)
    (is_exact : ∀ e ∈ new, K.codec.exact e) (is_part : part <+: recordLines K new) :
    Sound K es new c := by
  obtain ⟨bytes, file, clean⟩ := h.file
  refine ⟨?_, fun no_stray => ?_⟩
  · rw [file]
    exact clean.opens_part is_exact is_part
  · have tidy : Tidy K c es := by
      refine ⟨h.repair, ?_, h.inner⟩
      rw [file, h.stray no_stray]
      simpa using clean
    exact tidy.ready

variable {Q : Except EhdbError Unit → JournalCell S → Prop} {I : JournalCell S → Prop}

/-- A step on the file that does nothing if it fails. -/
theorem safely_act {f : JournalCell S → JournalCell S} (holds : I c) (error : Q (.error ioError) c)
    (ok : I (f c) ∧ Q (.ok ()) (f c)) : Safely I (.lift fun o c => match o with
      | WriteOutcome.ok => some (.ok (), f c)
      | .fail _ => some (.error ioError, c)) Q c := by
  intro o a c' h
  cases o with
  | ok =>
    cases h
    exact ok
  | fail n =>
    cases h
    exact ⟨holds, error⟩

theorem safely_besideFile
    (holds : I c) (ok : Q (.ok ()) c) (error : Q (.error ioError) c) :
    Safely I (besideFile (S := S)).run Q c := safely_act (f := id) holds error ⟨holds, ok⟩

abbrev Repaired (K : JournalKind E S) (es : List E) : Except EhdbError Unit → JournalCell S → Prop
  | .ok (), c => Tidy K c es ∧ c.stray = false
  | .error _, c => Ready K c es ∧ c.stray = false

theorem safely_forgetRepair (clean : Clean K (c.file.getD []) es)
    (inner : es.foldlM K.apply K.empty = .ok c.inner) (no_stray : c.stray = false) :
    Safely (fun c' => Ready K c' es ∧ c'.stray = false) (forgetRepair (S := S)).run
      (Repaired K es) c := by
  intro o a c' h
  cases h
  have tidy : Tidy K { c with repair := .default } es := ⟨rfl, clean, inner⟩
  exact ⟨⟨tidy.ready, no_stray⟩, tidy, no_stray⟩

theorem safely_openExisting (holds : I c)
    (ok : c.file.isSome → Q (.ok ()) c) (error : Q (.error ioError) c) :
    Safely I (openExisting (S := S)).run Q c := by
  intro o a c' h
  dsimp only at h
  split at h
  · rename_i found
    cases h
    exact ⟨holds, ok (by simp [found])⟩
  · cases h
    exact ⟨holds, error⟩

/-- The file gets a text that is clean, and still has its repair to come. -/
theorem safely_mend {mend : JournalCell S → JournalCell S} (text : Bytes) (ready : Ready K c es)
    (no_stray : c.stray = false) (mended : mend c = { c with file := some text })
    (clean : Clean K text es) (mends : Mends K (some text) c.repair es) :
    Safely (fun c' => Ready K c' es ∧ c'.stray = false) ((do
      openExisting
      Prog.lift fun o c => match o with
        | WriteOutcome.ok => some (.ok (), mend c)
        | .fail _ => some (.error ioError, c)
      besideFile
      forgetRepair : JournalAction S Unit)).run (Repaired K es) c := by
  refine .bindExcept (safely_openExisting ⟨ready, no_stray⟩ (fun _ => ?_) ⟨ready, no_stray⟩)
  refine .bindExcept (safely_act ⟨ready, no_stray⟩ ⟨ready, no_stray⟩ ?_)
  rw [mended]
  have ready' : Ready K { c with file := some text } es := ⟨clean.opens, mends, ready.inner⟩
  refine ⟨⟨ready', no_stray⟩, ?_⟩
  refine .bindExcept (safely_besideFile ⟨ready', no_stray⟩ ?_ ⟨ready', no_stray⟩)
  exact safely_forgetRepair clean ready.inner no_stray

theorem safely_applyRepair (ready : Ready K c es) (no_stray : c.stray = false) :
    Safely (fun c' => Ready K c' es ∧ c'.stray = false) (applyRepair c.repair).run
      (Repaired K es) c := by
  have mends := ready.mends
  cases cut : c.repair.truncateTo with
  | some len =>
    simp only [Mends, cut] at mends
    obtain ⟨bytes, file, short, clean⟩ := mends
    simp only [applyRepair, cut]
    refine safely_mend (bytes.take len) ready no_stray (by simp [file, short]) clean ?_
    simp only [Mends, cut]
    exact ⟨_, rfl, by simp [short], by rwa [take_take, Nat.min_self]⟩
  | none =>
    cases end_mark : c.repair.appendNewline with
    | false =>
      simp only [Mends, cut, end_mark] at mends
      simp only [applyRepair, cut, end_mark]
      exact safely_forgetRepair mends ready.inner no_stray
    | true =>
      simp only [Mends, cut, end_mark, if_true] at mends
      obtain ⟨bytes, file, clean⟩ := mends
      simp only [applyRepair, cut, end_mark, if_true]
      -- A newline that was written and not synced is written again: a blank line.
      refine safely_mend (bytes ++ [newline]) ready no_stray
        (by simp [JournalCell.extend, file]) clean ?_
      simp only [Mends, cut, end_mark, if_true]
      exact ⟨_, rfl, clean.newline⟩

theorem safely_prepareAppend (ready : Ready K c es) (no_stray : c.stray = false) :
    Safely (fun c' => Ready K c' es ∧ c'.stray = false) (prepareAppend (S := S)).run
      (fun
        | .ok (), c' => Partly K es [] c'
        | .error _, c' => Ready K c' es ∧ c'.stray = false) c := by
  refine .bindExcept ?_
  intro o a c' h
  cases h
  refine ⟨⟨ready, no_stray⟩, ?_⟩
  refine .bindExcept ((safely_applyRepair ready no_stray).mono (fun _ => id) ?_)
  intro result c' repaired
  cases result with
  | error e => exact repaired
  | ok _ =>
    obtain ⟨tidy, no_stray'⟩ := repaired
    have ready' := tidy.ready
    refine .bindExcept (safely_besideFile ⟨ready', no_stray'⟩ ?_ ⟨ready', no_stray'⟩)
    have opened : Tidy K { c' with file := some (c'.file.getD []) } es :=
      ⟨tidy.repair, tidy.clean, tidy.inner⟩
    exact safely_act ⟨ready', no_stray'⟩ ⟨ready', no_stray'⟩ ⟨⟨opened.ready, no_stray'⟩,
      tidy.repair, ⟨c'.file.getD [], by simp, tidy.clean⟩, tidy.inner, fun _ => rfl⟩

theorem safely_writeRecords {part chunk}
    (h : Partly K es part c) (is_exact : ∀ e ∈ new, K.codec.exact e)
    (is_part : part ++ chunk <+: recordLines K new)
    (ok : ∀ c', Partly K es (part ++ chunk) c' → Q (.ok ()) c')
    (error : ∀ c', Sound K es new c' → Q (.error ioError) c') :
    Safely (Sound K es new) (writeRecords (S := S) chunk).run Q c := by
  obtain ⟨bytes, file, clean⟩ := h.file
  intro o a c' stepped
  cases o with
  | ok =>
    cases stepped
    have written : Partly K es (part ++ chunk) { c.extend chunk with stray := true } :=
      ⟨h.repair, ⟨bytes, by simp [JournalCell.extend, file], clean⟩, h.inner, nofun⟩
    exact ⟨written.sound is_exact is_part, ok _ written⟩
  | fail n =>
    cases stepped
    have written : Partly K es (part ++ chunk.take n)
        { c.extend (chunk.take n) with stray := c.stray || 0 < n } := by
      refine ⟨h.repair, ⟨bytes, by simp [JournalCell.extend, file], clean⟩, h.inner, ?_⟩
      intro no_stray
      obtain ⟨before, zero⟩ := Bool.or_eq_false_iff.1 no_stray
      have : n = 0 := by simpa using zero
      simp [h.stray before, this]
    have cut : part ++ chunk.take n <+: recordLines K new :=
      ((prefix_append_right_inj _).2 ( take_prefix _ _)).trans is_part
    exact ⟨written.sound is_exact cut, error _ (written.sound is_exact cut)⟩

abbrev Written (K : JournalKind E S) (es new : List E) :
    Except EhdbError Unit → JournalCell S → Prop
  | .ok (), c => Partly K es (recordLines K new) c
  | .error _, c => Sound K es new c

theorem safely_appendRecordToDisk {e} (ready : Ready K c es) (no_stray : c.stray = false)
    (is_exact : K.codec.exact e) :
    Safely (Sound K es [e]) (appendRecordToDisk K e).run (Written K es [e]) c := by
  have all_exact : ∀ x ∈ [e], K.codec.exact x := fun x mem => mem_singleton.1 mem ▸ is_exact
  have line : recordLines K [e] = K.codec.toVec e ++ [newline] := by simp [recordLines]
  refine .bindExcept ((safely_prepareAppend ready no_stray).mono (fun _ h => h.1.sound) ?_)
  intro result c' prepared
  cases result with
  | error _ => exact prepared.1.sound
  | ok _ =>
    refine .bindExcept (safely_writeRecords prepared all_exact ?_ ?_ fun _ => id)
    · rw [line]
      exact prefix_append _ _
    · intro c'' written
      refine .bindExcept (safely_writeRecords written all_exact (by rw [line]; exact prefix_rfl)
        ?_ fun _ => id)
      intro c₃ whole
      have whole : Partly K es (recordLines K [e]) c₃ := line ▸ whole
      have sound := whole.sound all_exact prefix_rfl
      exact safely_besideFile sound whole sound

variable {inner inner' : S}

theorem insertAll_of_applies (h : new.foldlM K.apply inner = .ok inner') :
    insertAll K inner new = (inner', .ok ()) := by
  induction new generalizing inner with
  | nil =>
    cases h
    rfl
  | cons e new ih =>
    obtain ⟨next, applied, h⟩ := bind_eq_ok h
    rw [insertAll, applied]
    exact ih h

theorem Partly.inserted {inner'} (whole : Partly K es (recordLines K new) c)
    (is_exact : ∀ e ∈ new, K.codec.exact e) (applies : new.foldlM K.apply c.inner = .ok inner') :
    Ready K { c with inner := inner', stray := false } (es ++ new) := by
  obtain ⟨bytes, file, clean⟩ := whole.file
  have tidy : Tidy K { c with inner := inner', stray := false } (es ++ new) := by
    refine ⟨whole.repair, ?_, ?_⟩
    · simp only [file, Option.getD_some]
      exact clean.append is_exact
    · rw [foldlM_append, whole.inner]
      exact applies
  exact tidy.ready

/-- The file reads as records that the log takes: those in `es` and others after them. -/
def Replays (K : JournalKind E S) (es : List E) (file : Option Bytes) : Prop :=
  ∃ extra inner, Opens K file (es ++ extra) ∧ (es ++ extra).foldlM K.apply K.empty = .ok inner

/-- What a call ends with: the file replays the records of the log and those that were
acknowledged, and holds just these unless it has stray bytes. -/
structure Settled (K : JournalKind E S) (es : List E) (c : JournalCell S) : Prop where
  replays : Replays K es c.file
  ready : c.stray = false → Ready K c es

theorem Ready.replays (ready : Ready K c es) : Replays K es c.file :=
  ⟨[], c.inner, by simpa using ready.opens, by simpa using ready.inner⟩

theorem Ready.settled (ready : Ready K c es) : Settled K es c := ⟨ready.replays, fun _ => ready⟩

/-- An answered call added what it acknowledged, a failed one nothing. -/
def Ends {α : Type} (K : JournalKind E S) (es : List E) (acked : α → List E) :
    Result α → JournalCell S → Prop
  | .ok a, c => Settled K (es ++ acked a) c
  | .error _, c => Settled K es c

theorem Sound.settled (sound : Sound K es new c) (held : es.foldlM K.apply K.empty = .ok inner)
    (applies : new.foldlM K.apply inner = .ok inner') : Settled K es c := by
  obtain ⟨done, ⟨rest, rfl⟩, opens⟩ := sound.opens
  rw [foldlM_append] at applies
  obtain ⟨between, applied, -⟩ := bind_eq_ok applies
  refine ⟨⟨done, between, opens, ?_⟩, sound.ready⟩
  rw [foldlM_append, held]
  exact applied

theorem safely_commit {β α : Type} {plan} {records : β → List E}
    {write} {answer : β → S → α} {acked : α → List E}
    (ready : Ready K c es) (names : ∀ planned inner, acked (answer planned inner) = records planned)
    (takes : ∀ planned, plan c.inner = .ok planned →
      (∃ inner', (records planned).foldlM K.apply c.inner = .ok inner') ∧
      (∀ e ∈ records planned, K.codec.exact e) ∧
      Safely (Sound K es (records planned)) (write planned).run
        (Written K es (records planned)) c) :
    Safely (fun c' => Replays K es c'.file) (commit K plan records write answer).run
      (Ends K es acked) c := by
  refine .bindExcept ?_
  intro o b c' h
  cases h
  refine ⟨ready.replays, ?_⟩
  refine .bindExcept ?_
  cases is : plan c.inner with
  | error e => exact ready.settled
  | ok planned =>
    obtain ⟨⟨inner', applies⟩, is_exact, writes⟩ := takes planned is
    refine .bindExcept (writes.mono
      (fun c' sound => (sound.settled ready.inner applies).replays) ?_)
    intro result c' written
    cases result with
    | error e => exact Sound.settled written ready.inner applies
    | ok _ =>
      refine .bindExcept ?_
      intro o b c'' h
      have held : c'.inner = c.inner := Except.ok.inj (written.inner.symm.trans ready.inner)
      dsimp only at h
      rw [held, insertAll_of_applies applies] at h
      cases h
      have after := written.inserted is_exact (held ▸ applies)
      refine ⟨⟨_, _, after.opens, after.inner⟩, ?_⟩
      show Settled K (es ++ acked (answer planned inner')) _
      rw [names]
      exact after.settled

variable {κ α : Type}

def ackedRecords (acked : κ → α → List E) : List (Fate κ (Result α)) → List E
  | [] => []
  | .answered request (.ok a) :: rest => acked request a ++ ackedRecords acked rest
  | _ :: rest => ackedRecords acked rest

theorem ackedRecords_append (acked : κ → α → List E) (past more : List (Fate κ (Result α))) :
    ackedRecords acked (past ++ more) = ackedRecords acked past ++ ackedRecords acked more := by
  induction past with
  | nil => rfl
  | cons fate past ih =>
    cases fate with
    | stopped req => exact ih
    | answered req result =>
      cases result with
      | error e => exact ih
      | ok a => simp [ackedRecords, ih]

theorem Settled.halted (settled : Settled K es c) : Settled K es { c with stray := true } :=
  ⟨settled.replays, nofun⟩

variable {T : Thread (JournalCell S) WriteOutcome κ (Result α)}

/-- The calls of a log whose records it takes, each made while the file has no stray bytes. A log
whose call was cut short is not used again. -/
theorem journal_keeps
    (fine : S → κ → Prop) (acked : κ → α → List E) (initial : List E)
    (halts : ∀ c, T.halt c = { c with stray := true })
    (calls : ∀ c es req, Ready K c es → c.stray = false → fine c.inner req →
      Safely (fun c' => Replays K es c'.file) (T.program req) (Ends K es (acked req)) c) :
    T.Keeps (fun c req => c.stray = false ∧ fine c.inner req)
      (fun past c => Settled K (initial ++ ackedRecords acked past) c) := by
  refine ⟨?_, ?_⟩
  · rintro past c req settled ⟨no_stray, is_fine⟩
    have run := calls c _ req (settled.ready no_stray) no_stray is_fine
    refine run.mono ?_ ?_
    · intro c' replays
      rw [halts, ackedRecords_append]
      exact ⟨by simpa [ackedRecords] using replays, nofun⟩
    · intro result c' ends
      rw [ackedRecords_append]
      cases result with
      | ok a => simpa [ackedRecords, Ends] using ends
      | error e => simpa [ackedRecords, Ends] using ends
  · intro past c req settled
    rw [halts, ackedRecords_append]
    simpa [ackedRecords] using settled.halted

/-- In a run of a log that was opened on a file, the file can be opened at any time, and replays
the records it had, those of the calls that were answered `Ok`, and then perhaps more. -/
theorem journal_reopens
    {C acked initial}
    (halts : ∀ c, T.halt c = { c with stray := true })
    (keeps : T.Keeps C (fun past c => Settled K (initial ++ ackedRecords acked past) c))
    (ready : Ready K c initial) {deeds}
    (along : (Solo.start c).Along T C deeds) :
    ∃ extra log, openJournal K ((Solo.start c).run T deeds).state.file = .ok log ∧
      Opens K ((Solo.start c).run T deeds).state.file
        (initial ++ ackedRecords acked ((Solo.start c).run T deeds).past ++ extra) ∧
      (initial ++ ackedRecords acked ((Solo.start c).run T deeds).past ++ extra).foldlM K.apply
        K.empty = .ok log.inner := by
  have holds := Solo.keeps keeps (s := c) (by simpa [ackedRecords] using ready.settled) along
  have replays : Replays K (initial ++ ackedRecords acked ((Solo.start c).run T deeds).past)
      ((Solo.start c).run T deeds).state.file := by
    unfold Solo.Holds at holds
    split at holds
    · exact holds.replays
    · have := holds.1.replays
      rw [halts, ackedRecords_append] at this
      simpa [ackedRecords] using this
  obtain ⟨extra, inner, opens, applied⟩ := replays
  obtain ⟨log, opened, rfl⟩ := opens.openJournal applied
  exact ⟨extra, log, opened, opens, applied⟩

end Append

end Ehdb.Proof.Journal
