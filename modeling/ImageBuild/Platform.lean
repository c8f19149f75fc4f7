/-!
# `ImageBuild.Platform`: target platforms

An image is built for an operating system and an architecture. Kernels, compilers and image
indexes name them differently; `Os.ofName` and `Arch.ofMachine` read the common spellings, `name`
writes the one of image indexes.
-/

set_option autoImplicit false

namespace ImageBuild

/-- An operating system that images are built for. -/
inductive Os
  | linux
  | windows
  | darwin
  | freeBsd
  | unknown
  deriving DecidableEq, Repr

namespace Os

/-- The system with this name. -/
def ofName : String → Os
  | "linux" => .linux
  | "windows" => .windows
  | "macos" | "darwin" => .darwin
  | "freebsd" => .freeBsd
  | _ => .unknown

/-- The name in image indexes. -/
def name : Os → String
  | .linux => "linux"
  | .windows => "windows"
  | .darwin => "darwin"
  | .freeBsd => "freebsd"
  | .unknown => "unknown"

end Os

/-- A revision of the 32-bit ARM architecture. -/
inductive ArmVariant
  | v6
  | v7
  deriving DecidableEq, Repr

/-- A processor architecture. -/
inductive Arch
  | i386
  | amd64
  | arm (variant : ArmVariant)
  | arm64
  | ppc64le
  | s390x
  | riscv64
  | unknown
  deriving DecidableEq, Repr

namespace Arch

/-- The architecture that a machine reports under this name. -/
def ofMachine : String → Arch
  | "i386" | "i586" | "i686" | "x86" => .i386
  | "x86_64" | "amd64" => .amd64
  | "armv6l" | "armv6" => .arm .v6
  | "arm" | "armv7l" | "armv7" | "armhf" => .arm .v7
  | "aarch64" | "arm64" => .arm64
  | "ppc64le" => .ppc64le
  | "s390x" => .s390x
  | "riscv64" => .riscv64
  | _ => .unknown

/-- The name in image indexes. -/
def name : Arch → String
  | .i386 => "386"
  | .amd64 => "amd64"
  | .arm _ => "arm"
  | .arm64 => "arm64"
  | .ppc64le => "ppc64le"
  | .s390x => "s390x"
  | .riscv64 => "riscv64"
  | .unknown => "unknown"

/-- The revision in image indexes, where there are several. -/
def variant : Arch → Option String
  | .arm .v6 => some "v6"
  | .arm .v7 => some "v7"
  | _ => none

end Arch

/-- What an image is built for. -/
structure Platform where
  os : Os
  arch : Arch
  deriving DecidableEq, Repr

/-- System, architecture and revision with slashes between them. -/
def Platform.display (p : Platform) : String :=
  let base := p.os.name ++ "/" ++ p.arch.name
  match p.arch.variant with
  | some v => base ++ "/" ++ v
  | none => base

end ImageBuild
