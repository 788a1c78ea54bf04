import RoutePolicy.Command.Arguments
import RoutePolicy.Proofs.Tables

/-!
The order of the words of a command line. The words that are accepted are groups: a word that is no
option, a flag, an option with its value, and letters with the values they take. What is read from
groups is told by three lists apart, the words, the flags and the settings in the order they come,
so groups may change places as long as the words, and the settings of one option, do not.
-/

set_option autoImplicit false

namespace RoutePolicy

/-- Of several entries for a name the last one is found. -/
theorem Table.get?_arrange_last {α : Type} (entries : List (String × α)) (name : String) :
    (arrange entries).get? name =
      ((entries.filter (·.1 = name)).getLast?).map Prod.snd := by
  induction entries using List.reverseRecOn with
  | nil => rfl
  | append_singleton entries entry ih =>
    rw [arrange_concat, get?_place, List.filter_append]
    by_cases here : entry.1 = name
    · simp [here]
    · simp [here, ih]

namespace Command.Arguments

/-- A text that looks like an option. -/
def Dashed (text : String) : Prop := text.toList.head? = some '-'

/-- Words of a command line that belong together. -/
inductive Group where
  /-- A word that is no option. -/
  | word (text : String)
  /-- The name of a flag. -/
  | flag (name : String)
  /-- The name of an option, and its value. -/
  | option (name value : String)
  /-- Letters, and the values of the options among them. -/
  | letters (cs : List Char) (values : List String)
deriving DecidableEq

namespace Group

/-- The words as they are written. -/
def words : Group → List String
  | word text => [text]
  | flag name => ["--" ++ name]
  | option name value => ["--" ++ name, value]
  | letters cs values => String.ofList ('-' :: cs) :: values

/-- The words are what they look like: names and letters are known, and every option has a value. -/
inductive Valid : Group → Prop
  | word {text : String} (plain : ¬Dashed text ∨ text = "-") : Valid (.word text)
  | flag {name : String} (other : name ∉ valueOptions) : Valid (.flag name)
  | option {name value : String} (known : name ∈ valueOptions) (plain : ¬Dashed value) :
      Valid (.option name value)
  | letters {cs : List Char} {values : List String} (some : cs ≠ [])
      (known : ∀ c ∈ cs, c = 'o' ∨ (flagOf? c).isSome) (counted : values.length = cs.count 'o')
      (plain : ∀ value ∈ values, ¬Dashed value) : Valid (.letters cs values)

/-- The words that are the command or positional. -/
def positionals : Group → List String
  | word text => [text]
  | _ => []

/-- The flags that are set. -/
def flags : Group → List String
  | flag name => if name = "__proto__" then [] else [name]
  | letters cs _ => cs.filterMap flagOf?
  | _ => []

/-- The options that are set, with their values. -/
def settings : Group → List (String × String)
  | option name value => [(name, value)]
  | letters _ values => values.map ("output", ·)
  | _ => []

def isWord : Group → Bool
  | word _ => true
  | _ => false

/-- Whether a group sets an option. -/
def sets (name : String) (g : Group) : Bool := g.settings.any (·.1 = name)

end Group

/-! ### Reading groups -/

/-- What words, flags and settings come to. -/
def summary (words flags : List String) (settings : List (String × String)) : Arguments where
  command := (words.find? (!·.isEmpty)).getD ""
  positionals := (words.dropWhile (·.isEmpty)).tail
  flags := Table.arrange (flags.map fun name => (name, ()))
  options := Table.arrange settings

section

variable {words flags : List String} {settings : List (String × String)}

theorem summary_word (text : String) :
    (summary words flags settings).addWord text = summary (words ++ [text]) flags settings := by
  cases found : words.find? (!·.isEmpty) with
  | none =>
    have blank : words.dropWhile (·.isEmpty) = [] := by
      simpa [List.dropWhile_eq_nil_iff] using found
    by_cases empty : text.isEmpty = true
    · obtain rfl : text = "" := by simpa using empty
      simp [summary, addWord, found, blank, List.dropWhile_append, List.find?_append]
    · simp [summary, addWord, found, blank, empty, List.dropWhile_append, List.find?_append]
  | some command =>
    have filled : command.isEmpty = false := by simpa using List.find?_some found
    have rest : words.dropWhile (·.isEmpty) ≠ [] := by
      intro blank
      have empty := List.dropWhile_eq_nil_iff.mp blank command (List.mem_of_find?_eq_some found)
      simp [filled] at empty
    simp [summary, addWord, found, filled, List.dropWhile_append, List.find?_append, rest,
      List.tail_append_of_ne_nil rest]

theorem summary_flag {name : String} (other : name ≠ "__proto__") :
    (summary words flags settings).addFlag name = summary words (flags ++ [name]) settings := by
  simp [summary, addFlag, other, Table.arrange_concat]

theorem summary_setting (name value : String) :
    (summary words flags settings).setOption name value =
      summary words flags (settings ++ [(name, value)]) := by
  simp [summary, setOption, Table.arrange_concat]

theorem takeValue_ok {option value : String} {written rest : List String} :
    takeValue option written = .ok (value, rest) ↔ written = value :: rest ∧ ¬Dashed value := by
  cases written with
  | nil => simp [takeValue]
  | cons first others =>
    rw [takeValue, List.cons.injEq]
    by_cases dashed : first.toList.head? = some '-'
    · rw [if_pos dashed]
      constructor
      · rintro ⟨⟩
      · rintro ⟨⟨rfl, rfl⟩, plain⟩
        exact absurd dashed plain
    · rw [if_neg dashed]
      constructor
      · rintro ⟨⟩
        exact ⟨⟨rfl, rfl⟩, dashed⟩
      · rintro ⟨⟨rfl, rfl⟩, plain⟩
        rfl

theorem letters_summary {cs : List Char} {values rest : List String}
    (known : ∀ c ∈ cs, c = 'o' ∨ (flagOf? c).isSome) (counted : values.length = cs.count 'o')
    (plain : ∀ value ∈ values, ¬Dashed value) :
    letters (summary words flags settings) cs (values ++ rest) =
      .ok (summary words (flags ++ cs.filterMap flagOf?)
        (settings ++ values.map ("output", ·)), rest) := by
  induction cs generalizing flags settings values with
  | nil =>
    obtain rfl := List.eq_nil_of_length_eq_zero counted
    simp [letters]
  | cons c more ih =>
    obtain ⟨own, further⟩ := List.forall_mem_cons.mp known
    by_cases option : c = 'o'
    · subst option
      cases values with
      | nil => simp at counted
      | cons value values =>
        obtain ⟨here, later⟩ := List.forall_mem_cons.mp plain
        have taken : takeValue "output" (value :: values ++ rest) = .ok (value, values ++ rest) :=
          takeValue_ok.mpr ⟨rfl, here⟩
        rw [letters, taken]
        show letters ((summary words flags settings).setOption "output" value) more _ = _
        rw [summary_setting, ih further (by simpa using counted) later]
        simp [flagOf?]
    · obtain ⟨flag, stands⟩ := Option.isSome_iff_exists.mp (own.resolve_left option)
      have other : flag ≠ "__proto__" := by
        rintro rfl
        unfold flagOf? at stands
        split at stands <;> simp at stands
      rw [letters.eq_3 _ _ _ _ option, stands]
      show letters ((summary words flags settings).addFlag flag) more _ = _
      rw [summary_flag other, ih further (by simpa [option] using counted) plain]
      simp [stands]

end

section

variable {a : Arguments} {rest : List String}

theorem readFrom_word {text : String} (plain : ¬Dashed text ∨ text = "-") :
    readFrom a (text :: rest) = readFrom (a.addWord text) rest := by
  rw [readFrom]
  split
  · next name looks =>
    rcases plain with plain | rfl
    · exact absurd (by rw [Dashed, looks]; rfl) plain
    · cases looks
  · next c more _ looks =>
    rcases plain with plain | rfl
    · exact absurd (by rw [Dashed, looks]; rfl) plain
    · cases looks
  · rfl

/-- A word with two dashes is an option with a value, or a flag. -/
theorem readFrom_dashes (name : String) :
    readFrom a (("--" ++ name) :: rest) =
      if name ∈ valueOptions then takeValue name rest >>= fun found =>
        readFrom (a.setOption name found.1) found.2
      else readFrom (a.addFlag name) rest := by
  have looks : ("--" ++ name).toList = '-' :: '-' :: name.toList := by simp
  rw [readFrom]
  split
  · next cs same =>
    obtain rfl : name.toList = cs := by simpa [looks] using same
    simp only [String.ofList_toList, List.contains_eq_mem, decide_eq_true_eq]
    by_cases known : name ∈ valueOptions
    · rw [if_pos known, if_pos known]
      split
      · next fault failed =>
        rw [String.ofList_toList] at failed
        rw [failed]
        rfl
      · next found others taken =>
        rw [String.ofList_toList] at taken
        rw [taken]
        rfl
    · rw [if_neg known, if_neg known]
  · next c more single same =>
    rw [looks] at same
    cases same
    exact (single rfl).elim
  · next single => exact absurd looks (single _ _)

theorem readFrom_flag {name : String} (other : name ∉ valueOptions) :
    readFrom a (("--" ++ name) :: rest) = readFrom (a.addFlag name) rest := by
  rw [readFrom_dashes, if_neg other]

theorem readFrom_option {name value : String} (known : name ∈ valueOptions)
    (plain : ¬Dashed value) :
    readFrom a (("--" ++ name) :: value :: rest) = readFrom (a.setOption name value) rest := by
  have taken : takeValue name (value :: rest) = .ok (value, rest) := takeValue_ok.mpr ⟨rfl, plain⟩
  rw [readFrom_dashes, if_pos known, taken]
  rfl

theorem readFrom_letters {a' : Arguments} {cs : List Char} {written : List String} (filled : cs ≠ [])
    (single : cs.head? ≠ some '-') (taken : letters a cs written = .ok (a', rest)) :
    readFrom a (String.ofList ('-' :: cs) :: written) = readFrom a' rest := by
  have looks : (String.ofList ('-' :: cs)).toList = '-' :: cs := String.toList_ofList
  rw [readFrom]
  split
  · next name same =>
    rw [looks] at same
    cases same
    exact absurd rfl single
  · next c more _ same =>
    obtain rfl : cs = c :: more := by simpa [looks] using same
    split
    · next fault failed =>
      rw [taken] at failed
      cases failed
    · next found others same =>
      rw [taken] at same
      cases same
      rfl
  · next double single =>
    cases cs with
    | nil => exact absurd rfl filled
    | cons c more => exact absurd looks (single _ _)

end

/-- What a group says is added to what has been read. -/
theorem readFrom_group {g : Group} (valid : g.Valid) (words flags : List String)
    (settings : List (String × String)) (rest : List String) :
    readFrom (summary words flags settings) (g.words ++ rest) =
      readFrom (summary (words ++ g.positionals) (flags ++ g.flags) (settings ++ g.settings))
        rest := by
  cases valid with
  | @word text plain =>
    show readFrom _ (text :: rest) = _
    rw [readFrom_word plain, summary_word]
    simp [Group.positionals, Group.flags, Group.settings]
  | @flag name other =>
    show readFrom _ (("--" ++ name) :: rest) = _
    rw [readFrom_flag other]
    by_cases unset : name = "__proto__"
    · simp [addFlag, Group.positionals, Group.flags, Group.settings, unset]
    · rw [summary_flag unset]
      simp [Group.positionals, Group.flags, Group.settings, unset]
  | @option name value known plain =>
    show readFrom _ (("--" ++ name) :: value :: rest) = _
    rw [readFrom_option known plain, summary_setting]
    simp [Group.positionals, Group.flags, Group.settings]
  | @letters cs values filled known counted plain =>
    show readFrom _ (String.ofList ('-' :: cs) :: (values ++ rest)) = _
    have single : cs.head? ≠ some '-' := by
      intro dash
      have dashed := known '-' (List.mem_of_mem_head? dash)
      simp [flagOf?] at dashed
    rw [readFrom_letters filled single (letters_summary known counted plain)]
    simp [Group.positionals, Group.flags, Group.settings]

theorem readFrom_groups {groups : List Group} (valid : ∀ g ∈ groups, g.Valid)
    (words flags : List String) (settings : List (String × String)) :
    readFrom (summary words flags settings) (groups.flatMap Group.words) =
      .ok (summary (words ++ groups.flatMap Group.positionals) (flags ++ groups.flatMap Group.flags)
        (settings ++ groups.flatMap Group.settings)) := by
  induction groups generalizing words flags settings with
  | nil =>
    rw [List.flatMap_nil, readFrom]
    simp
  | cons g rest ih =>
    obtain ⟨own, later⟩ := List.forall_mem_cons.mp valid
    rw [List.flatMap_cons, readFrom_group own, ih later]
    simp

/-- Groups are read to the summary of what they say. -/
theorem read_groups {groups : List Group} (valid : ∀ g ∈ groups, g.Valid) :
    read (groups.flatMap Group.words) = .ok (summary (groups.flatMap Group.positionals)
      (groups.flatMap Group.flags) (groups.flatMap Group.settings)) :=
  readFrom_groups valid [] [] []

/-! ### Accepted words are groups -/

theorem letters_ok {a a' : Arguments} {cs : List Char} {written rest : List String}
    (read : letters a cs written = .ok (a', rest)) :
    (∀ c ∈ cs, c = 'o' ∨ (flagOf? c).isSome) ∧ ∃ values, written = values ++ rest ∧
      values.length = cs.count 'o' ∧ ∀ value ∈ values, ¬Dashed value := by
  fun_induction letters a cs written with
  | case1 a written =>
    cases read
    exact ⟨List.forall_mem_nil _, [], rfl, rfl, List.forall_mem_nil _⟩
  | case2 a more written ih =>
    cases found : takeValue "output" written with
    | error fault => simp [found, bind, Except.bind] at read
    | ok pair =>
      obtain ⟨value, others⟩ := pair
      simp only [found, bind, Except.bind] at read
      obtain ⟨rfl, plain⟩ := takeValue_ok.mp found
      obtain ⟨known, values, rfl, counted, later⟩ := ih value others read
      refine ⟨List.forall_mem_cons.mpr ⟨.inl rfl, known⟩, value :: values, rfl, ?_,
        List.forall_mem_cons.mpr ⟨plain, later⟩⟩
      simp [counted]
  | case3 a c more written option flag stands ih =>
    obtain ⟨known, values, rfl, counted, plain⟩ := ih read
    refine ⟨List.forall_mem_cons.mpr ⟨.inr (by simp [stands]), known⟩, values, rfl, ?_, plain⟩
    rw [counted, List.count_cons_of_ne option]
  | case4 => cases read

/-- Words that are accepted are groups. -/
theorem exists_groups {a b : Arguments} {written : List String}
    (read : readFrom a written = .ok b) :
    ∃ groups : List Group, (∀ g ∈ groups, g.Valid) ∧ groups.flatMap Group.words = written := by
  fun_induction readFrom a written with
  | case1 a => exact ⟨[], List.forall_mem_nil _, rfl⟩
  | case2 => cases read
  | case3 a word rest name looks option known value others taken ih =>
    obtain ⟨groups, valid, rfl⟩ := ih read
    obtain ⟨rfl, plain⟩ := takeValue_ok.mp taken
    have own : word = "--" ++ option := String.ext (by simp [looks, option])
    have listed : option ∈ valueOptions := List.contains_iff_mem.mp known
    refine ⟨.option option value :: groups,
      List.forall_mem_cons.mpr ⟨.option listed plain, valid⟩, ?_⟩
    simp [Group.words, own]
  | case4 a word rest name looks flag unknown ih =>
    obtain ⟨groups, valid, rfl⟩ := ih read
    have own : word = "--" ++ flag := String.ext (by simp [looks, flag])
    have other : flag ∉ valueOptions := fun listed => unknown (List.contains_iff_mem.mpr listed)
    refine ⟨.flag flag :: groups, List.forall_mem_cons.mpr ⟨.flag other, valid⟩, ?_⟩
    simp [Group.words, own]
  | case5 => cases read
  | case6 a word rest c more _ looks a' others taken ih =>
    obtain ⟨groups, valid, rfl⟩ := ih read
    obtain ⟨known, values, rfl, counted, plain⟩ := letters_ok taken
    have own : word = String.ofList ('-' :: c :: more) := String.ext (by simp [looks])
    refine ⟨.letters (c :: more) values :: groups, List.forall_mem_cons.mpr
      ⟨.letters (List.cons_ne_nil c more) known counted plain, valid⟩, ?_⟩
    simp [Group.words, own]
  | case7 a word rest _ single ih =>
    obtain ⟨groups, valid, rfl⟩ := ih read
    have plain : ¬Dashed word ∨ word = "-" := by
      rcases looks : word.toList with _ | ⟨c, _ | ⟨d, more⟩⟩
      · exact .inl (by simp [Dashed, looks])
      · by_cases dash : c = '-'
        · exact .inr (String.ext (by simp [looks, dash]))
        · exact .inl (by simp [Dashed, looks, dash])
      · exact .inl fun dashed => by
          obtain rfl : c = '-' := by simpa [Dashed, looks] using dashed
          exact single d more looks
    refine ⟨.word word :: groups, List.forall_mem_cons.mpr ⟨.word plain, valid⟩, ?_⟩
    simp [Group.words]

/-! ### Groups in another order -/

/-- Groups that have changed places, but not the words among themselves, nor the groups that set one
option. -/
structure Rearranged (groups others : List Group) : Prop where
  perm : groups.Perm others
  words : groups.filter Group.isWord = others.filter Group.isWord
  options : ∀ name, groups.filter (Group.sets name) = others.filter (Group.sets name)

/-- Arguments that say the same. Their tables may differ in the order of entries. -/
structure Alike (a b : Arguments) : Prop where
  command : a.command = b.command
  positionals : a.positionals = b.positionals
  flags : ∀ name, a.hasFlag name = b.hasFlag name
  options : ∀ name, a.option? name = b.option? name
  flagEntries : a.flags.Perm b.flags
  optionEntries : a.options.Perm b.options

theorem flatMap_filter {β : Type} {p : Group → Bool} {f : Group → List β}
    (idle : ∀ g, p g = false → f g = []) (groups : List Group) :
    (groups.filter p).flatMap f = groups.flatMap f := by
  induction groups with
  | nil => rfl
  | cons g rest ih =>
    cases own : p g with
    | true => simp [own, ih]
    | false => simp [own, ih, idle g own]

theorem filter_settings (groups : List Group) (name : String) :
    (groups.flatMap Group.settings).filter (·.1 = name) =
      (groups.filter (Group.sets name)).flatMap fun g => g.settings.filter (·.1 = name) := by
  rw [List.filter_flatMap, flatMap_filter]
  intro g unset
  simpa [Group.sets] using unset

theorem positionals_rearranged {groups others : List Group} (rearranged : Rearranged groups others) :
    groups.flatMap Group.positionals = others.flatMap Group.positionals := by
  have idle : ∀ g : Group, g.isWord = false → g.positionals = [] := by
    intro g other
    cases g with
    | word text => cases other
    | _ => rfl
  rw [← flatMap_filter idle, rearranged.words, flatMap_filter idle]

/-- What is found under a name depends on the entries of that name alone. -/
theorem get?_settings_rearranged {groups others : List Group} (rearranged : Rearranged groups others)
    (name : String) : (Table.arrange (groups.flatMap Group.settings)).get? name =
      (Table.arrange (others.flatMap Group.settings)).get? name := by
  rw [Table.get?_arrange_last, Table.get?_arrange_last, filter_settings, filter_settings,
    rearranged.options]

theorem get?_flags (flags : List String) (name : String) :
    (Table.arrange (flags.map fun flag => (flag, ()))).get? name =
      if name ∈ flags then some () else none := by
  induction flags using List.reverseRecOn with
  | nil => rfl
  | append_singleton flags flag ih =>
    rw [List.map_append, List.map_singleton, Table.arrange_concat, Table.get?_place, ih]
    by_cases here : flag = name
    · simp [here]
    · simp [here, Ne.symm here]

/-- Whether a flag is set does not depend on the order of groups. -/
theorem get?_flags_rearranged {groups others : List Group} (perm : groups.Perm others)
    (name : String) :
    (Table.arrange ((groups.flatMap Group.flags).map fun flag => (flag, ()))).get? name =
      (Table.arrange ((others.flatMap Group.flags).map fun flag => (flag, ()))).get? name := by
  have same : name ∈ groups.flatMap Group.flags ↔ name ∈ others.flatMap Group.flags :=
    (perm.flatMap_right _).mem_iff
  rw [get?_flags, get?_flags]
  simp only [same]

/-- Groups that have changed places say the same. -/
theorem summary_alike {groups others : List Group} (rearranged : Rearranged groups others) :
    Alike (summary (groups.flatMap Group.positionals) (groups.flatMap Group.flags)
        (groups.flatMap Group.settings))
      (summary (others.flatMap Group.positionals) (others.flatMap Group.flags)
        (others.flatMap Group.settings)) := by
  have flags := get?_flags_rearranged rearranged.perm
  have options := get?_settings_rearranged rearranged
  refine ⟨?_, ?_, fun name => ?_, options, ?_, ?_⟩
  · rw [summary, summary, positionals_rearranged rearranged]
  · rw [summary, summary, positionals_rearranged rearranged]
  · exact congrArg Option.isSome (flags name)
  · exact Table.perm_of_get? (Table.arranged_arrange _).distinct
      (Table.arranged_arrange _).distinct flags
  · exact Table.perm_of_get? (Table.arranged_arrange _).distinct
      (Table.arranged_arrange _).distinct options

/-- Words that are accepted are groups, and groups that have changed places are accepted and say the
same, if the words have kept their order and so have the groups that set one option. -/
theorem option_order_irrelevant {written : List String} {a : Arguments}
    (accepted : read written = .ok a) :
    (∃ groups : List Group, (∀ g ∈ groups, g.Valid) ∧ groups.flatMap Group.words = written) ∧
    ∀ groups others : List Group, (∀ g ∈ groups, g.Valid) →
      groups.flatMap Group.words = written → Rearranged groups others →
        ∃ b, read (others.flatMap Group.words) = .ok b ∧ a.Alike b := by
  refine ⟨exists_groups accepted, ?_⟩
  rintro groups others valid rfl rearranged
  have others_valid : ∀ g ∈ others, g.Valid := fun g member =>
    valid g (rearranged.perm.mem_iff.mpr member)
  obtain rfl := Except.ok.inj (accepted.symm.trans (read_groups valid))
  exact ⟨_, read_groups others_valid, summary_alike rearranged⟩

/-! ### A command line with its options first, and another one with them behind -/

namespace SavedQuery

def optionsFirst : List Group :=
  [.letters ['o', 'b'] ["a.json"], .flag "trace", .word "query", .option "output" "b.json",
    .word "net.json"]

def wordsFirst : List Group :=
  [.word "query", .word "net.json", .letters ['o', 'b'] ["a.json"], .option "output" "b.json",
    .flag "trace"]

theorem valid : ∀ g ∈ optionsFirst, g.Valid := by
  have query : Group.Valid (.word "query") := .word (by simp [Dashed])
  have net : Group.Valid (.word "net.json") := .word (by simp [Dashed])
  have output : Group.Valid (.option "output" "b.json") := .option (by decide) (by simp [Dashed])
  have trace : Group.Valid (.flag "trace") := .flag (by decide)
  have known : ∀ c ∈ ['o', 'b'], c = 'o' ∨ (flagOf? c).isSome :=
    List.forall_mem_cons.mpr ⟨.inl rfl, List.forall_mem_singleton.mpr (.inr rfl)⟩
  have saved : Group.Valid (.letters ['o', 'b'] ["a.json"]) :=
    .letters (List.cons_ne_nil _ _) known rfl (by simp [Dashed])
  simp [optionsFirst, query, net, output, trace, saved]

theorem rearranged : Rearranged optionsFirst wordsFirst where
  perm := by decide
  words := rfl
  options name := by
    simp [optionsFirst, wordsFirst, Group.sets, Group.settings, List.filter_cons]

end SavedQuery

open SavedQuery in
theorem saved_query_alike :
    let saved : Arguments := ⟨"query", ["net.json"], [("simplify-bools", ()), ("trace", ())],
      [("output", "b.json")]⟩
    (read ["-ob", "a.json", "--trace", "query", "--output", "b.json", "net.json"] = .ok saved ∧
      Rearranged optionsFirst wordsFirst) ∧
    ∃ b, read ["query", "net.json", "-ob", "a.json", "--output", "b.json", "--trace"] = .ok b ∧
      saved.Alike b := by
  intro saved
  have accepted : read (optionsFirst.flatMap Group.words) = .ok saved := by
    rw [read_groups valid]
    decide
  obtain ⟨b, reads, alike⟩ :=
    (option_order_irrelevant accepted).2 optionsFirst wordsFirst valid rfl rearranged
  exact ⟨⟨accepted, rearranged⟩, b, reads, alike⟩

end Command.Arguments

end RoutePolicy
