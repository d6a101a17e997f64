import RecurrenceCompiler.Script.Value

/-!
# Names of the host

What a name means that neither a function nor its unit defines: the constants and functions that
every script can use, and the fields that every record holds, the record of global names among them.
-/

namespace RecurrenceCompiler.Script.Host

/-- The text of the record of all global names. -/
def globalRecord : String := "[object global]"

/-- The records that have a name, with their texts. -/
def records : List (String × String) :=
  [("Math", Value.mathRecord), ("this", globalRecord), ("globalThis", globalRecord),
    ("global", globalRecord), ("arguments", "[object Arguments]"), ("JSON", "[object JSON]"),
    ("Reflect", "[object Reflect]"), ("Atomics", "[object Atomics]"), ("Intl", "[object Intl]"),
    ("WebAssembly", "[object WebAssembly]"), ("console", "[object console]"),
    ("process", "[object process]"), ("performance", "[object Performance]"),
    ("navigator", "[object Navigator]"), ("crypto", "[object Crypto]")]

/-- The functions that have a name, besides the constructor of tables. -/
def functions : List String :=
  ["Object", "Function", "Number", "Boolean", "String", "Symbol", "BigInt", "Date", "Promise",
    "RegExp", "Error", "AggregateError", "EvalError", "RangeError", "ReferenceError", "SyntaxError",
    "TypeError", "URIError", "Map", "Set", "WeakMap", "WeakSet", "WeakRef", "Proxy", "Iterator",
    "FinalizationRegistry", "ArrayBuffer", "SharedArrayBuffer", "DataView", "Int8Array",
    "Uint8Array", "Uint8ClampedArray", "Int16Array", "Uint16Array", "Int32Array", "Uint32Array",
    "Float32Array", "Float64Array", "BigInt64Array", "BigUint64Array", "parseInt", "parseFloat",
    "isNaN", "isFinite", "eval", "escape", "unescape", "encodeURI", "encodeURIComponent",
    "decodeURI", "decodeURIComponent", "setTimeout", "setInterval", "setImmediate", "clearTimeout",
    "clearInterval", "clearImmediate", "queueMicrotask", "structuredClone", "fetch", "atob", "btoa",
    "Buffer", "URL", "URLSearchParams", "TextEncoder", "TextDecoder", "AbortController",
    "AbortSignal", "Event", "EventTarget", "MessageChannel", "MessagePort", "MessageEvent", "Blob",
    "File", "FormData", "Headers", "Request", "Response", "Performance", "WebSocket"]

/-- The value of a global name. -/
def value? [Carrier α] (name : String) : Option (Value α) :=
  if name == "undefined" then some .undefined
  else if name == "NaN" then some (.num Value.nan)
  else if name == "Infinity" then some (.num (Carrier.ofFloat (1.0 / 0.0)))
  else if name == "Array" then some (.function .array)
  else
    ((Json.getField? records name).map .record) <|>
      (if functions.contains name then some (.function (.host name)) else none) <|>
      (Ambient.ofName? name).map Value.ofAmbient

end RecurrenceCompiler.Script.Host
