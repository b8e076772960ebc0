import VmodCfg.Lib.Printf
import VmodCfg.Script.Init
import VmodCfg.Script.RegexpCache

/-!
# The errors of `regmatch`, `regsub` and `regsuball`

A regexp that does not compile comes from the script, and its text is in the
message of the error. The command prints the message with `%s`. The Lua glue
pushes it as a string; the JavaScript glue passes it to `duk_error`, which takes
a format.
-/

namespace VmodCfg.Script.RegexpCache

open Machine CString

/-! ## The formats of the commands -/

def messageFormat : List UInt8 := (ofString "Failed to instantiate '%s' regexp.").bytes

/-- `LOG` in `init_regexp`, with the position that the macro adds. -/
def logFormat : List UInt8 :=
  (ofString "[CFG][%s:%d] Got error while compiling regexp (script=%s, regexp=%s): %s").bytes

/-- The text of the regexp is an argument of the message, and printed as it is. -/
theorem format_message (regexp : CString) :
    Printf.format messageFormat [.str regexp] = some (regexpError regexp).bytes := by
  have hformat : messageFormat = (ofString "Failed to instantiate '").bytes ++
      37 :: 115 :: ((ofString "' regexp.").bytes ++ []) := by decide +kernel
  rw [hformat, Printf.format_append (by decide +kernel), Printf.format_str,
    Printf.format_append (by decide +kernel), Printf.format_nil, regexpError, bytes_append,
    bytes_append, List.append_assoc]
  simp only [Option.map_some, List.append_nil]

theorem format_log (func : CString) (line : Int) (name regexp errbuf : CString) :
    Printf.format logFormat [.str func, .int line, .str name, .str regexp, .str errbuf] =
      some ((ofString "[CFG][").bytes ++ (func.bytes ++ ((ofString ":").bytes ++
        (Decimal.text line ++
          ((ofString "] Got error while compiling regexp (script=").bytes ++ (name.bytes ++
            ((ofString ", regexp=").bytes ++ (regexp.bytes ++
              ((ofString "): ").bytes ++ errbuf.bytes))))))))) := by
  have hformat : logFormat = (ofString "[CFG][").bytes ++ 37 :: 115 :: ((ofString ":").bytes ++
      37 :: 100 :: ((ofString "] Got error while compiling regexp (script=").bytes ++
        37 :: 115 :: ((ofString ", regexp=").bytes ++
          37 :: 115 :: ((ofString "): ").bytes ++ [37, 115])))) := by decide +kernel
  rw [hformat, Printf.format_append (by decide +kernel), Printf.format_str,
    Printf.format_append (by decide +kernel), Printf.format_int,
    Printf.format_append (by decide +kernel), Printf.format_str,
    Printf.format_append (by decide +kernel), Printf.format_str,
    Printf.format_append (by decide +kernel), Printf.format_str, Printf.format_nil]
  simp only [Option.map_some, List.append_nil]

/-! ## Raising an error -/

/-- What the script sees of an error: the message, a `RangeError` of the interpreter, or nothing
that can be told, when a directive reads an argument that was not passed. -/
inductive Raised where
  | error (message : CString)
  | rangeError
  | undefined
  deriving DecidableEq

def dukBufferMax : Nat := 0x7ffffffe

/-- `duk_error(D, DUK_ERR_TYPE_ERROR, fmt)`: `duk_push_vsprintf` starts with a buffer of 16 bytes
more than the format, which holds the output at once. -/
def dukError (fmt : CString) : Raised :=
  if dukBufferMax < max (fmt.bytes.length + 16) 256 then .rangeError
  else
    match Printf.format fmt.bytes [] with
    | some out => .error (ofBytes out)
    | none => .undefined

def luaError (error : CString) : Raised := .error error

def raise : EngineType → CString → Raised
  | .lua => luaError
  | .javascript => dukError

def directivesRead : EngineType → CString → List Printf.Piece
  | .lua, _ => []
  | .javascript, error => Printf.directives error.bytes

inductive ScriptEnd where
  | returned (ans : Answer)
  | raised (r : Raised)
  deriving DecidableEq

def finish (type : EngineType) : Answer → ScriptEnd
  | .failed (some error) => .raised (raise type error)
  | ans => .returned ans

/-- `duk_error` raises a text exactly if there is no `%` in it and the buffer can hold it. -/
theorem dukError_eq_iff (error : CString) :
    dukError error = .error error ↔
      37 ∉ error.bytes ∧ error.bytes.length + 16 ≤ dukBufferMax := by
  unfold dukError
  split
  · rename_i hmax
    unfold dukBufferMax at hmax ⊢
    constructor
    · intro h
      cases h
    · rintro ⟨-, hle⟩
      omega
  · rename_i hmax
    have hfits : error.bytes.length + 16 ≤ dukBufferMax := by omega
    rw [and_iff_left hfits, ← Printf.format_self_iff]
    cases hout : Printf.format error.bytes [] with
    | none => simp
    | some out =>
      -- the output is never longer than the format, so nothing is cut off at a NUL
      have hself : out = error.bytes → ofBytes out = error := fun h => by
        rw [h]
        exact ext (bytes_ofBytes error.no_nul)
      simp only [Raised.error.injEq, Option.some.injEq]
      constructor
      · intro h
        have hle := (Printf.length_of_format hout).1
        have hcut : error.bytes <+: out := by
          rw [← h]
          exact List.takeWhile_prefix _
        exact (hcut.eq_of_length (le_antisymm hcut.length_le hle)).symm
      · exact hself

theorem mem_regexpError (regexp : CString) :
    37 ∈ (regexpError regexp).bytes ↔ 37 ∈ regexp.bytes := by
  have hstart : 37 ∉ (ofString "Failed to instantiate '").bytes := by decide +kernel
  have hend : 37 ∉ (ofString "' regexp.").bytes := by decide +kernel
  rw [regexpError, bytes_append, bytes_append, List.mem_append, List.mem_append]
  tauto

theorem length_regexpError (regexp : CString) :
    (regexpError regexp).bytes.length = regexp.bytes.length + 32 := by
  have hstart : (ofString "Failed to instantiate '").bytes.length = 23 := by decide +kernel
  have hend : (ofString "' regexp.").bytes.length = 9 := by decide +kernel
  rw [regexpError, bytes_append, bytes_append, List.length_append, List.length_append, hstart, hend]
  omega

/-- The script gets exactly the message, and none of its bytes was read as a directive. -/
def RaisedAsIs (type : EngineType) (ans : Answer) (message : CString) : Prop :=
  finish type ans = .raised (.error message) ∧ directivesRead type message = []

theorem raisedAsIs_iff (type : EngineType) (regexp : CString) :
    RaisedAsIs type (.failed (some (regexpError regexp))) (regexpError regexp) ↔
      type = .lua ∨ 37 ∉ regexp.bytes ∧ regexp.bytes.length + 48 ≤ dukBufferMax := by
  unfold RaisedAsIs finish raise directivesRead
  cases type with
  | lua => simp [luaError]
  | javascript =>
    have hduk := dukError_eq_iff (regexpError regexp)
    have hread := Printf.directives_eq_nil_iff (regexpError regexp).bytes
    rw [mem_regexpError] at hduk hread
    rw [length_regexpError] at hduk
    simp only [ScriptEnd.raised.injEq, hduk, hread, reduceCtorEq, false_or]
    constructor
    · rintro ⟨⟨hmem, hle⟩, -⟩
      exact ⟨hmem, by omega⟩
    · rintro ⟨hmem, hle⟩
      exact ⟨⟨hmem, by omega⟩, hmem⟩

section Runs

variable {T X R : Type*} [DecidableEq T] [Fintype T] {lib : RegexpLib X R}

/-- **Text of a script is used as a format** exactly in JavaScript, where a `%` in it is read as a
directive. In any run of any threads, the command of a regexp that does not compile has ended. -/
theorem script_text_not_format_iff (type : EngineType) {tr : List (Act T X R)}
    {s : CacheSys T X R} (hs : exec (CacheSys.step lib) .init tr = some s) {t : T} {c : Call X}
    {ans : Answer} (hend : s.thr t = .run c (.returned ans)) (hcompile : lib.compile c.regexp = none)
    (hroom : (lib.wsPrintf c.ctx (regexpError c.regexp)).isSome)
    (hprintf : ∀ x m m', lib.wsPrintf x m = some m' → m' = m) :
    RaisedAsIs type ans (regexpError c.regexp) ↔
      type = .lua ∨ 37 ∉ c.regexp.bytes ∧ c.regexp.bytes.length + 48 ≤ dukBufferMax := by
  have hok := (CacheInv.reach hs).threads t
  rw [hend] at hok
  obtain ⟨error, herror⟩ := Option.isSome_iff_exists.mp hroom
  have hans : ans = .failed (some (regexpError c.regexp)) := by
    rw [hok.1, RegexpLib.fresh, hcompile]
    show RegexpLib.fail lib c = _
    rw [RegexpLib.fail, herror, hprintf _ _ _ herror]
  rw [hans]
  exact raisedAsIs_iff type c.regexp

end Runs

/-- A library to which an unclosed group is an error; the workspace has room. -/
abbrev groupLib : RegexpLib Unit CString :=
  ⟨fun text => if text.bytes.head? = some 40 ∧ 41 ∉ text.bytes then none else some text,
    fun _ string re => decide (re = string), fun _ _ _ _ sub => some sub, fun _ e => some e⟩

/-- `regmatch` of the empty string, without the cache. -/
abbrev groupCall (regexp : CString) : Call Unit := ⟨(), .regmatch .empty, regexp, false⟩

/-- The call, from its start to its end. -/
abbrev groupRun (regexp : CString) : List (Act Unit Unit CString) :=
  [.call () (groupCall regexp), .go () .empty, .go () .empty]

theorem groupRun_returns {regexp : CString} (h : groupLib.compile regexp = none) :
    ∃ s, exec (CacheSys.step groupLib) .init (groupRun regexp) = some s ∧
      s.thr () = .run (groupCall regexp) (.returned (.failed (some (regexpError regexp)))) := by
  let c := groupCall regexp
  have hstart : (CacheSys.init : CacheSys Unit Unit CString).goto () c .start =
      alone ⟨0, ∅⟩ ⟨[]⟩ c .start := goto_alone c .start
  have hcompile : (alone ⟨0, ∅⟩ ⟨[]⟩ c .start).next groupLib () c .empty .start =
      some (alone ⟨0, ∅⟩ ⟨[]⟩ c .compiling) := congrArg some (goto_alone c .compiling)
  have hfail : (alone ⟨0, ∅⟩ ⟨[]⟩ c .compiling).next groupLib () c .empty .compiling =
      some (alone ⟨0, ∅⟩ ⟨[]⟩ c (.returned (groupLib.fail c))) := by
    rw [CacheSys.next, h]
    exact congrArg some (goto_alone c _)
  refine ⟨alone ⟨0, ∅⟩ ⟨[]⟩ c (.returned (groupLib.fail c)), ?_, rfl⟩
  show exec (CacheSys.step groupLib) ((CacheSys.init : CacheSys Unit Unit CString).goto () c .start)
    (steps () 2) = _
  rw [hstart, exec_alone hcompile, exec_alone hfail]
  rfl

theorem script_text_not_format_iff_group :
    ∃ s, exec (CacheSys.step groupLib) .init (groupRun (ofString "(")) = some s ∧
      ∃ ans, s.thr () = .run (groupCall (ofString "(")) (.returned ans) ∧
        RaisedAsIs .javascript ans (ofString "Failed to instantiate '(' regexp.") := by
  have hmessage : ofString "Failed to instantiate '(' regexp." = regexpError (ofString "(") := by
    decide +kernel
  have hcompile : groupLib.compile (ofString "(") = none := by decide +kernel
  obtain ⟨s, hs, hend⟩ := groupRun_returns hcompile
  refine ⟨s, hs, _, hend, ?_⟩
  rw [hmessage]
  exact (script_text_not_format_iff .javascript hs hend hcompile rfl fun _ _ _ h =>
    (Option.some.inj h).symm).mpr (.inr (by decide +kernel))

/-- In the message about the regexp `(%s` of a JavaScript function, `duk_error` looks for a string
to print. -/
theorem script_text_as_format :
    ∃ s, exec (CacheSys.step groupLib) .init (groupRun (ofString "(%s")) = some s ∧
      ∃ ans, s.thr () = .run (groupCall (ofString "(%s")) (.returned ans) ∧
        finish .javascript ans = .raised .undefined ∧
        directivesRead .javascript (regexpError (ofString "(%s")) = [.directive (some 115)] ∧
        ¬ RaisedAsIs .javascript ans (regexpError (ofString "(%s")) := by
  have hcompile : groupLib.compile (ofString "(%s") = none := by decide +kernel
  obtain ⟨s, hs, hend⟩ := groupRun_returns hcompile
  refine ⟨s, hs, _, hend, by decide +kernel, by decide +kernel, fun h => ?_⟩
  exact absurd ((raisedAsIs_iff _ _).mp h) (by decide +kernel)

end VmodCfg.Script.RegexpCache
