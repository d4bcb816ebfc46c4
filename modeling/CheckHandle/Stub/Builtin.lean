import CheckHandle.Stub.Basic

/-!
# Stubs that need no file

The packages that every program may import.
-/

namespace CheckHandle

open Std

/-- A declared type with its methods. -/
def typeStub (underlying : String) (methods : List (String × String)) : TypeStub :=
  ⟨underlying, TreeMap.ofList methods⟩

def errorsStub : PackageStub where
  funcs := TreeMap.ofList [
    ("New", "func(text string) error"),
    ("Is", "func(err, target error) bool"),
    ("As", "func(err error, target any) bool"),
    ("Unwrap", "func(err error) error"),
    ("Join", "func(errs ...error) error")]

def fmtStub : PackageStub where
  funcs := TreeMap.ofList [
    ("Errorf", "func(format string, a ...any) error"),
    ("Sprintf", "func(format string, a ...any) string"),
    ("Sprint", "func(a ...any) string"),
    ("Sprintln", "func(a ...any) string"),
    ("Printf", "func(format string, a ...any) (int, error)"),
    ("Println", "func(a ...any) (int, error)"),
    ("Print", "func(a ...any) (int, error)"),
    ("Fprintf", "func(w io.Writer, format string, a ...any) (int, error)"),
    ("Fprintln", "func(w io.Writer, a ...any) (int, error)"),
    ("Sscanf", "func(str string, format string, a ...any) (int, error)")]
  types := TreeMap.ofList [
    ("Stringer", typeStub "interface \x7b String() string \x7d" [])]

def strconvStub : PackageStub where
  funcs := TreeMap.ofList [
    ("Atoi", "func(s string) (int, error)"),
    ("Itoa", "func(i int) string"),
    ("ParseInt", "func(s string, base int, bitSize int) (int64, error)"),
    ("ParseUint", "func(s string, base int, bitSize int) (uint64, error)"),
    ("ParseFloat", "func(s string, bitSize int) (float64, error)"),
    ("ParseBool", "func(str string) (bool, error)"),
    ("FormatInt", "func(i int64, base int) string"),
    ("Quote", "func(s string) string"),
    ("Unquote", "func(s string) (string, error)")]
  types := TreeMap.ofList [
    ("NumError", typeStub "struct \x7b Func string; Num string; Err error \x7d" [
      ("Error", "func() string"),
      ("Unwrap", "func() error")])]

def osStub : PackageStub where
  funcs := TreeMap.ofList [
    ("Open", "func(name string) (*File, error)"),
    ("Create", "func(name string) (*File, error)"),
    ("OpenFile", "func(name string, flag int, perm FileMode) (*File, error)"),
    ("ReadFile", "func(name string) ([]byte, error)"),
    ("WriteFile", "func(name string, data []byte, perm FileMode) error"),
    ("Remove", "func(name string) error"),
    ("RemoveAll", "func(path string) error"),
    ("Mkdir", "func(name string, perm FileMode) error"),
    ("MkdirAll", "func(path string, perm FileMode) error"),
    ("Getenv", "func(key string) string"),
    ("LookupEnv", "func(key string) (string, bool)"),
    ("Getwd", "func() (string, error)"),
    ("Exit", "func(code int)"),
    ("Stat", "func(name string) (FileInfo, error)")]
  vars := TreeMap.ofList [
    ("Args", "[]string"),
    ("Stdin", "*File"),
    ("Stdout", "*File"),
    ("Stderr", "*File"),
    ("ErrNotExist", "error")]
  types := TreeMap.ofList [
    ("File", typeStub "struct \x7b\x7d" [
      ("Close", "func() error"),
      ("Name", "func() string"),
      ("Read", "func(b []byte) (int, error)"),
      ("Write", "func(b []byte) (int, error)"),
      ("WriteString", "func(s string) (int, error)"),
      ("Sync", "func() error"),
      ("Stat", "func() (FileInfo, error)")]),
    ("FileMode", typeStub "uint32" []),
    ("FileInfo", typeStub "interface \x7b Name() string; Size() int64; IsDir() bool; Mode() FileMode \x7d" [])]

def ioStub : PackageStub where
  funcs := TreeMap.ofList [
    ("ReadAll", "func(r Reader) ([]byte, error)"),
    ("Copy", "func(dst Writer, src Reader) (int64, error)"),
    ("WriteString", "func(w Writer, s string) (int, error)")]
  vars := TreeMap.ofList [
    ("EOF", "error")]
  types := TreeMap.ofList [
    ("Reader", typeStub "interface \x7b Read(p []byte) (int, error) \x7d" []),
    ("Writer", typeStub "interface \x7b Write(p []byte) (int, error) \x7d" []),
    ("Closer", typeStub "interface \x7b Close() error \x7d" []),
    ("ReadCloser", typeStub "interface \x7b Reader; Closer \x7d" [])]

def stringsStub : PackageStub where
  funcs := TreeMap.ofList [
    ("Contains", "func(s, substr string) bool"),
    ("HasPrefix", "func(s, prefix string) bool"),
    ("HasSuffix", "func(s, suffix string) bool"),
    ("Index", "func(s, substr string) int"),
    ("Join", "func(elems []string, sep string) string"),
    ("Split", "func(s, sep string) []string"),
    ("Fields", "func(s string) []string"),
    ("Repeat", "func(s string, count int) string"),
    ("Replace", "func(s, old, new string, n int) string"),
    ("ToLower", "func(s string) string"),
    ("ToUpper", "func(s string) string"),
    ("TrimSpace", "func(s string) string"),
    ("NewReader", "func(s string) *Reader")]
  types := TreeMap.ofList [
    ("Builder", typeStub "struct \x7b\x7d" [
      ("WriteString", "func(s string) (int, error)"),
      ("WriteByte", "func(c byte) error"),
      ("String", "func() string"),
      ("Len", "func() int")]),
    ("Reader", typeStub "struct \x7b\x7d" [
      ("Read", "func(b []byte) (int, error)"),
      ("Len", "func() int")])]

/-- The predeclared packages. -/
def builtinStubs : StubFile :=
  TreeMap.ofList [
    ("errors", errorsStub),
    ("fmt", fmtStub),
    ("strconv", strconvStub),
    ("os", osStub),
    ("io", ioStub),
    ("strings", stringsStub)]

/-- What the predeclared packages declare. -/
def StubSet.builtin : Except Failure StubSet :=
  match builtinStubs.load with
  | .ok set => .ok set
  | .error fault => .error (unplaced "<builtin>" .stubs (.invalidStubs fault))

end CheckHandle
